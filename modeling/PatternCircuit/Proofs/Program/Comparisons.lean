import PatternCircuit.Proofs.Program.Emission

/-! # The comparisons of the transition step

A builder emits a comparison when it is first asked for, and answers later requests from its memo.
The comparisons of a step are therefore the ones that were asked for, each once and in the order of
the first requests, and the tables that are reported from the memo list exactly these. -/

namespace PatternCircuit

/-! ### Comparisons of a step -/

/-- The code that an operation compares the input with. -/
def Op.code? : Op → Option UInt8
  | equals code => some code
  | _ => none

/-- The operation is one side of a range test. -/
def Op.isBound : Op → Bool
  | atLeast _ | atMost _ => true
  | _ => false

/-- The range that an operation of a step tests: it is the conjunction of two bounds, one from below
and one from above. -/
def testedRange? (step : List Op) : Op → Option (UInt8 × UInt8)
  | .conj [.node i, .node j] =>
      match step[i]?, step[j]? with
      | some (.atLeast lo), some (.atMost hi) => some (lo, hi)
      | some (.atMost hi), some (.atLeast lo) => some (lo, hi)
      | _, _ => none
  | _ => none

/-- The codes that a step tests for equality, in order. -/
def codesOf (step : List Op) : List UInt8 := step.filterMap Op.code?

/-- The ranges that a step tests, in order. -/
def rangesOf (step : List Op) : List (UInt8 × UInt8) := step.filterMap (testedRange? step)

/-- The operations of a step read results of operations in the step only. -/
def Closed (step : List Op) : Prop :=
  ∀ op ∈ step, ∀ id, .node id ∈ op.operands → id < step.length

/-- The operand is not a bare bound. -/
def Combinable (step : List Op) (o : Operand) : Prop :=
  ∀ id, o = .node id → ∃ op, step[id]? = some op ∧ op.isBound = false

theorem Closed.append {step rest : List Op} (h : Closed step)
    (hrest : ∀ op ∈ rest, ∀ id, .node id ∈ op.operands → id < (step ++ rest).length) :
    Closed (step ++ rest) := by
  intro op hop id hid
  cases List.mem_append.mp hop with
  | inl hop => exact Nat.lt_of_lt_of_le (h op hop id hid) (by simp)
  | inr hop => exact hrest op hop id hid

theorem Combinable.lt {step : List Op} {id : Nat} (h : Combinable step (.node id)) :
    id < step.length := by
  obtain ⟨op, hop, _⟩ := h id rfl
  exact (List.getElem?_eq_some_iff.mp hop).1

theorem Combinable.mono {step step' : List Op} {o : Operand} (hstep : step <+: step')
    (h : Combinable step o) : Combinable step' o := by
  obtain ⟨rest, rfl⟩ := hstep
  intro id hid
  obtain ⟨op, hop, hbound⟩ := h id hid
  exact ⟨op, by rw [List.getElem?_append_left (List.getElem?_eq_some_iff.mp hop).1, hop], hbound⟩

/-- What is appended does not change which range an operation tests. -/
theorem testedRange?_append {step : List Op} {op : Op}
    (h : ∀ id, .node id ∈ op.operands → id < step.length) (rest : List Op) :
    testedRange? (step ++ rest) op = testedRange? step op := by
  unfold testedRange?
  split
  · rename_i i j
    rw [List.getElem?_append_left (h i (by simp [Op.operands])),
      List.getElem?_append_left (h j (by simp [Op.operands]))]
  · rfl

theorem testedRange?_of_combinable {step : List Op} {op : Op}
    (h : ∀ o ∈ op.operands, Combinable step o) : testedRange? step op = none := by
  unfold testedRange?
  split
  · rename_i i j
    obtain ⟨p, hp, hbound⟩ := h (.node i) (by simp [Op.operands]) i rfl
    rw [hp]
    split
    · rename_i heq _
      cases heq
      cases hbound
    · rename_i heq _
      cases heq
      cases hbound
    · rfl
  · rfl

/-- The operations of a range test that stands after `start` operations. -/
def rangeTest (start : Nat) (lo hi : UInt8) : List Op :=
  [.atLeast lo, .atMost hi, .conj [.node start, .node (start + 1)]]

theorem filterMap_rangeTest (step : List Op) (lo hi : UInt8) :
    (rangeTest step.length lo hi).filterMap
      (testedRange? (step ++ rangeTest step.length lo hi)) = [(lo, hi)] := by
  have hlower : (step ++ rangeTest step.length lo hi)[step.length]? = some (.atLeast lo) := by
    simp [rangeTest]
  have hupper : (step ++ rangeTest step.length lo hi)[step.length + 1]? = some (.atMost hi) := by
    simp [rangeTest]
  generalize step ++ rangeTest step.length lo hi = whole at hlower hupper
  have htest : testedRange? whole (.conj [.node step.length, .node (step.length + 1)]) =
      some (lo, hi) := by simp only [testedRange?, hlower, hupper]
  rw [rangeTest, List.filterMap_cons_none rfl, List.filterMap_cons_none rfl,
    List.filterMap_cons_some htest, List.filterMap_nil]

theorem codesOf_append (step rest : List Op) :
    codesOf (step ++ rest) = codesOf step ++ codesOf rest :=
  List.filterMap_append

theorem mem_codesOf {step : List Op} {c : UInt8} : c ∈ codesOf step ↔ .equals c ∈ step := by
  rw [codesOf, List.mem_filterMap]
  constructor
  · rintro ⟨op, hop, hcode⟩
    cases op <;> cases hcode
    exact hop
  · intro hop
    exact ⟨_, hop, rfl⟩

/-- What is extracted once stands at one place only. -/
theorem index_unique {α β : Type} {f : α → Option β} {xs : List α} (h : (xs.filterMap f).Nodup)
    {i j : Nat} {x : β} (hi : xs[i]?.bind f = some x) (hj : xs[j]?.bind f = some x) : i = j := by
  obtain ⟨a, ha, hfa⟩ := Option.bind_eq_some_iff.mp hi
  obtain ⟨a', ha', hfa'⟩ := Option.bind_eq_some_iff.mp hj
  obtain ⟨hilt, rfl⟩ := List.getElem?_eq_some_iff.mp ha
  obtain ⟨hjlt, rfl⟩ := List.getElem?_eq_some_iff.mp ha'
  have hapart := List.pairwise_iff_getElem.mp (List.pairwise_filterMap.mp h)
  rcases Nat.lt_trichotomy i j with hlt | heq | hgt
  · exact absurd rfl (hapart i j hilt hjlt hlt x hfa x hfa')
  · exact heq
  · exact absurd rfl (hapart j i hjlt hilt hgt x hfa' x hfa)

theorem rangesOf_append {step : List Op} (h : Closed step) (rest : List Op) :
    rangesOf (step ++ rest) = rangesOf step ++ rest.filterMap (testedRange? (step ++ rest)) := by
  rw [rangesOf, rangesOf, List.filterMap_append]
  -- the operations of a closed step do not read what comes behind it
  congr 1
  exact List.filterMap_congr fun op hop => testedRange?_append (h op hop) rest

namespace Builder

/-- The builder was asked for the given comparisons. Each stands in the step once, where it was
first asked for, and has an entry in the memo. -/
structure Recorded (b : Builder) (codes : List UInt8) (ranges : List (UInt8 × UInt8)) : Prop where
  emittedCodes : codesOf b.step = codes.eraseDups
  emittedRanges : rangesOf b.step = ranges.eraseDups
  codeKeys : (b.equalities.map Prod.fst).reverse = codes.eraseDups
  rangeKeys : (b.ranges.map Prod.fst).reverse = ranges.eraseDups
  closed : Closed b.step
  kept : ∀ e ∈ b.kept, Combinable b.step e.2

/-- A builder has gone on and has now been asked for the given comparisons; the given operands may
be combined. -/
structure Asked (b : Builder) (os : List Operand) (codes : List UInt8)
    (ranges : List (UInt8 × UInt8)) (b' : Builder) : Prop where
  recorded : b'.Recorded codes ranges
  isPrefix : b.step <+: b'.step
  combinable : ∀ o ∈ os, Combinable b'.step o

variable {b b' b'' : Builder} {codes codes' : List UInt8} {ranges ranges' : List (UInt8 × UInt8)}

theorem recorded_empty : empty.Recorded [] [] where
  emittedCodes := rfl
  emittedRanges := rfl
  codeKeys := rfl
  rangeKeys := rfl
  closed _ hop := by cases hop
  kept _ he := by cases he

/-- What is emitted can be combined, a bound excepted. -/
theorem combinable_emit (b : Builder) {op : Op} (h : op.isBound = false) :
    Combinable (b.emit op).2.step (b.emit op).1 := by
  intro id hid
  cases hid
  exact ⟨op, by simp [emit, step], h⟩

theorem Asked.trans {os os' : List Operand} (h : Asked b os codes ranges b')
    (h' : Asked b' os' codes' ranges' b'') : Asked b (os ++ os') codes' ranges' b'' where
  recorded := h'.recorded
  isPrefix := h.isPrefix.trans h'.isPrefix
  combinable o ho := by
    cases List.mem_append.mp ho with
    | inl ho => exact (h.combinable o ho).mono h'.isPrefix
    | inr ho => exact h'.combinable o ho

/-- Only the last answer is of interest. -/
theorem Asked.last {os os' : List Operand} (h : Asked b os codes ranges b')
    (h' : Asked b' os' codes' ranges' b'') : Asked b os' codes' ranges' b'' :=
  { h.trans h' with combinable := h'.combinable }

/-- Keeping the answer to a combination. -/
theorem Asked.keep {o : Operand} (h : Asked b [o] codes ranges b') {r : Request}
    (hr : r.isCombination = true) : Asked b [o] codes ranges (b'.keep o r) := by
  have hstep := b'.step_keep o r
  have hequalities : (b'.keep o r).equalities = b'.equalities := by
    cases r <;> first | rfl | cases hr
  have hranges : (b'.keep o r).ranges = b'.ranges := by
    cases r <;> first | rfl | cases hr
  refine ⟨⟨?_, ?_, ?_, ?_, ?_, ?_⟩, hstep ▸ h.isPrefix, hstep ▸ h.combinable⟩
  · rw [hstep, h.recorded.emittedCodes]
  · rw [hstep, h.recorded.emittedRanges]
  · rw [hequalities, h.recorded.codeKeys]
  · rw [hranges, h.recorded.rangeKeys]
  · rw [hstep]
    exact h.recorded.closed
  · intro e he
    rw [hstep]
    cases mem_kept_keep he with
    | inl heq => exact h.combinable e.2 (heq ▸ List.mem_singleton_self o)
    | inr hmem => exact h.recorded.kept e hmem

/-! ### Memo tables

A table lists the keys that were asked for, each once and the latest first. -/

section Table

variable {κ : Type} [BEq κ] [LawfulBEq κ] {table : List (κ × Operand)} {keys : List κ} {k : κ}

theorem eraseDups_of_mem {o : Operand} (hkeys : (table.map Prod.fst).reverse = keys.eraseDups)
    (h : (k, o) ∈ table) : (keys ++ [k]).eraseDups = keys.eraseDups := by
  have hmem : k ∈ keys.eraseDups := by
    rw [← hkeys, List.mem_reverse]
    exact List.mem_map_of_mem h
  rw [eraseDups_concat, if_pos (List.mem_eraseDups.mp hmem)]

theorem eraseDups_of_notMem (hkeys : (table.map Prod.fst).reverse = keys.eraseDups)
    (h : ∀ o, (k, o) ∉ table) : (keys ++ [k]).eraseDups = keys.eraseDups ++ [k] := by
  have hnew : k ∉ keys := by
    rw [← List.mem_eraseDups, ← hkeys, List.mem_reverse, List.mem_map]
    rintro ⟨e, he, rfl⟩
    exact h e.2 he
  rw [eraseDups_concat, if_neg hnew]

end Table

/-! ### Requests -/

/-- The run is tested as a range. -/
def isWide (r : UInt8 × UInt8) : Bool := rangeThreshold ≤ ByteSet.width r

def wideRuns (runs : List (UInt8 × UInt8)) : List (UInt8 × UInt8) := runs.filter isWide

/-- The codes of the runs that are not tested as ranges. -/
def loneCodes (runs : List (UInt8 × UInt8)) : List UInt8 :=
  (runs.filter fun r => !isWide r).flatMap fun r => ByteSet.interval r.1 r.2

theorem wideRuns_append (runs runs' : List (UInt8 × UInt8)) :
    wideRuns (runs ++ runs') = wideRuns runs ++ wideRuns runs' :=
  List.filter_append _ _

theorem loneCodes_append (runs runs' : List (UInt8 × UInt8)) :
    loneCodes (runs ++ runs') = loneCodes runs ++ loneCodes runs' := by
  rw [loneCodes, List.filter_append, List.flatMap_append]
  rfl

/-- The codes that a request asks for. -/
def Request.askedCodes : Request → List UInt8
  | equal code => [code]
  | byteTest set => loneCodes set.runs
  | range _ _ | any _ | all _ | not _ => []

/-- The ranges that a request asks for. -/
def Request.askedRanges : Request → List (UInt8 × UInt8)
  | range lo hi => [(lo, hi)]
  | byteTest set => wideRuns set.runs
  | equal _ | any _ | all _ | not _ => []

theorem asked_of_isCombination {r : Request} (h : r.isCombination = true) :
    r.askedCodes = [] ∧ r.askedRanges = [] := by
  cases r <;> first | exact ⟨rfl, rfl⟩ | cases h

theorem comparisons_of_isWide {run : UInt8 × UInt8} (h : isWide run = true) :
    comparisons run = [.range run.1 run.2] :=
  if_pos (of_decide_eq_true h)

theorem comparisons_of_not_isWide {run : UInt8 × UInt8} (h : isWide run = false) :
    comparisons run = (ByteSet.interval run.1 run.2).map .equal :=
  if_neg (of_decide_eq_false h)

theorem flatMap_askedCodes (runs : List (UInt8 × UInt8)) :
    (runs.flatMap comparisons).flatMap Request.askedCodes = loneCodes runs := by
  induction runs with
  | nil => rfl
  | cons run runs ih =>
      rw [List.flatMap_cons, List.flatMap_append, ih]
      cases hwide : isWide run with
      | true => simp [comparisons_of_isWide hwide, loneCodes, hwide, Request.askedCodes]
      | false =>
          simp [comparisons_of_not_isWide hwide, loneCodes, hwide, Request.askedCodes,
            List.flatMap_map]

theorem flatMap_askedRanges (runs : List (UInt8 × UInt8)) :
    (runs.flatMap comparisons).flatMap Request.askedRanges = wideRuns runs := by
  induction runs with
  | nil => rfl
  | cons run runs ih =>
      rw [List.flatMap_cons, List.flatMap_append, ih]
      cases hwide : isWide run with
      | true => simp [comparisons_of_isWide hwide, wideRuns, hwide, Request.askedRanges]
      | false =>
          simp [comparisons_of_not_isWide hwide, wideRuns, hwide, Request.askedRanges,
            List.flatMap_map]

theorem mem_loneCodes {runs : List (UInt8 × UInt8)} {c : UInt8} :
    c ∈ loneCodes runs ↔
      ∃ lo hi, lo ≤ c ∧ c ≤ hi ∧ ByteSet.width (lo, hi) < rangeThreshold ∧ (lo, hi) ∈ runs := by
  simp only [loneCodes, List.mem_flatMap, List.mem_filter, ByteSet.mem_interval, isWide,
    Bool.not_eq_true', decide_eq_false_iff_not, Nat.not_le, Prod.exists]
  constructor
  · rintro ⟨lo, hi, ⟨hmem, hwidth⟩, hlo, hhi⟩
    exact ⟨lo, hi, hlo, hhi, hwidth, hmem⟩
  · rintro ⟨lo, hi, hlo, hhi, hwidth, hmem⟩
    exact ⟨lo, hi, ⟨hmem, hwidth⟩, hlo, hhi⟩

/-- Runs are tested one after the other. -/
theorem Asked.trans_runs {os os' : List Operand} {runs runs' : List (UInt8 × UInt8)}
    (h : Asked b os (codes ++ loneCodes runs) (ranges ++ wideRuns runs) b')
    (h' : Asked b' os' (codes ++ loneCodes runs ++ loneCodes runs')
      (ranges ++ wideRuns runs ++ wideRuns runs') b'') :
    Asked b (os ++ os') (codes ++ loneCodes (runs ++ runs')) (ranges ++ wideRuns (runs ++ runs'))
      b'' := by
  rw [loneCodes_append, wideRuns_append, ← List.append_assoc, ← List.append_assoc]
  exact h.trans h'

section Requests

variable (h : b.Recorded codes ranges)
include h

theorem asked_known {os : List Operand} (hos : ∀ o ∈ os, Combinable b.step o) :
    Asked b os codes ranges b :=
  ⟨h, List.prefix_refl _, hos⟩

/-- Appending operations with the comparisons that are new among those asked for. -/
theorem asked_append (rest : List Op) {o : Operand} (hstep : b'.step = b.step ++ rest)
    (hreads : ∀ op ∈ rest, ∀ id, .node id ∈ op.operands → id < (b.step ++ rest).length)
    (hcodes : codes'.eraseDups = codes.eraseDups ++ codesOf rest)
    (hranges : ranges'.eraseDups =
      ranges.eraseDups ++ rest.filterMap (testedRange? (b.step ++ rest)))
    (hcodeKeys : (b'.equalities.map Prod.fst).reverse = codes'.eraseDups)
    (hrangeKeys : (b'.ranges.map Prod.fst).reverse = ranges'.eraseDups)
    (ho : Combinable b'.step o) (hkept : ∀ e ∈ b'.kept, e.2 = o ∨ e ∈ b.kept) :
    Asked b [o] codes' ranges' b' := by
  refine ⟨⟨?_, ?_, hcodeKeys, hrangeKeys, ?_, ?_⟩, ?_, ?_⟩
  · rw [hstep, codesOf_append, h.emittedCodes, hcodes]
  · rw [hstep, rangesOf_append h.closed, h.emittedRanges, hranges]
  · rw [hstep]
    exact h.closed.append hreads
  · intro e he
    cases hkept e he with
    | inl heq => rwa [heq]
    | inr hmem =>
        rw [hstep]
        exact (h.kept e hmem).mono (List.prefix_append _ _)
  · rw [hstep]
    exact List.prefix_append _ _
  · intro p hp
    rwa [List.mem_singleton.mp hp]

/-- Combining results, or storing them, makes no comparison. -/
theorem asked_emit (op : Op) (hcode : op.code? = none) (hbound : op.isBound = false)
    (hoperands : ∀ o ∈ op.operands, Combinable b.step o) :
    Asked b [(b.emit op).1] codes ranges (b.emit op).2 := by
  have hstep : (b.emit op).2.step = b.step ++ [op] := step_store b op
  -- no operand is a bare bound, so that even a conjunction of two is not a range test
  have hnone : testedRange? (b.step ++ [op]) op = none :=
    testedRange?_of_combinable fun o ho => (hoperands o ho).mono (List.prefix_append _ _)
  refine asked_append h [op] hstep ?_ ?_ ?_ h.codeKeys h.rangeKeys ?_ fun e he => .inr he
  · intro op' hop' id hid
    rw [List.mem_singleton.mp hop'] at hid
    exact Nat.lt_of_lt_of_le (hoperands _ hid).lt (by simp)
  · simp [codesOf, hcode]
  · simp [hnone]
  · exact combinable_emit b hbound

theorem asked_store (op : Op) (hcode : op.code? = none) (hbound : op.isBound = false)
    (hoperands : ∀ o ∈ op.operands, Combinable b.step o) : Asked b [] codes ranges (b.store op) :=
  { asked_emit h op hcode hbound hoperands with combinable := fun _ ho => by cases ho }

/-- An answer from the memo. Its request was made before, so it asks for nothing new. -/
theorem asked_again {r : Request} {o : Operand} (ho : (r.key, o) ∈ b.kept) (hits : Hits) :
    Asked b [o] (codes ++ r.askedCodes) (ranges ++ r.askedRanges) { b with hits := hits } := by
  have hsame : (codes ++ r.askedCodes).eraseDups = codes.eraseDups ∧
      (ranges ++ r.askedRanges).eraseDups = ranges.eraseDups := by
    cases r with
    | equal code =>
        rw [Request.askedRanges, List.append_nil]
        exact ⟨eraseDups_of_mem h.codeKeys (mem_kept_equal.mp ho), rfl⟩
    | range lo hi =>
        rw [Request.askedCodes, List.append_nil]
        exact ⟨rfl, eraseDups_of_mem h.rangeKeys (mem_kept_range.mp ho)⟩
    | byteTest set => simp [Request.key, Builder.kept] at ho
    | any | all | not => simp [Request.askedCodes, Request.askedRanges]
  refine ⟨⟨?_, ?_, ?_, ?_, h.closed, h.kept⟩, List.prefix_refl _, fun p hp => ?_⟩
  · rw [hsame.1]
    exact h.emittedCodes
  · rw [hsame.2]
    exact h.emittedRanges
  · rw [hsame.1]
    exact h.codeKeys
  · rw [hsame.2]
    exact h.rangeKeys
  · rw [List.mem_singleton.mp hp]
    exact h.kept _ ho

theorem asked_newCode {code : UInt8} (hnew : ∀ o, (.equal code, o) ∉ b.kept) :
    Asked b [(b.emit (.equals code)).1] (codes ++ [code]) ranges
      ((b.emit (.equals code)).2.keep (b.emit (.equals code)).1 (.equal code)) := by
  have hcodes := eraseDups_of_notMem h.codeKeys fun o ho => hnew o (mem_kept_equal.mpr ho)
  refine asked_append h [.equals code] (step_store b _) ?_ hcodes ?_ ?_ h.rangeKeys ?_ ?_
  · simp [Op.operands]
  · simp [testedRange?]
  · rw [hcodes, ← h.codeKeys, Builder.keep, List.map_cons, List.reverse_cons]
    rfl
  · exact combinable_emit b rfl
  · intro e he
    exact (mem_kept_keep he).imp_left fun heq => by rw [heq]

theorem asked_newRange {lo hi : UInt8} (hnew : ∀ o, (.range lo hi, o) ∉ b.kept) :
    Asked b [(b.bounds lo hi).1] codes (ranges ++ [(lo, hi)])
      ((b.bounds lo hi).2.keep (b.bounds lo hi).1 (.range lo hi)) := by
  have hranges := eraseDups_of_notMem h.rangeKeys fun o ho => hnew o (mem_kept_range.mpr ho)
  -- of the three operations that are appended only the last one tests a range
  refine asked_append h (rangeTest b.step.length lo hi) ?_ ?_ ?_ ?_ h.codeKeys ?_ ?_ ?_
  · simp [bounds, Builder.keep, emit, rangeTest, step]
  · simp [rangeTest, Op.operands]
  · simp [rangeTest, codesOf, Op.code?]
  · rw [filterMap_rangeTest, hranges]
  · rw [hranges, ← h.rangeKeys, Builder.keep, List.map_cons, List.reverse_cons]
    rfl
  · exact combinable_emit _ rfl
  · intro e he
    exact (mem_kept_keep he).imp_left fun heq => by rw [heq]

theorem asked_newCombination {r : Request} (hr : r.isCombination = true) {op : Op}
    (hop : r.op? = some op) (hoperands : ∀ o ∈ r.operands, Combinable b.step o) :
    Asked b [(b.emit op).1] codes ranges ((b.emit op).2.keep (b.emit op).1 r.key) := by
  have hcode : op.code? = none := by cases r <;> cases hop <;> first | rfl | cases hr
  have hbound : op.isBound = false := by cases r <;> cases hop <;> rfl
  have hkey : r.key.isCombination = true := by cases r <;> first | rfl | cases hr
  have hemit := asked_emit h op hcode hbound fun o ho =>
    hoperands o (Request.mem_operands_of_op? hop ho)
  exact hemit.keep hkey

theorem Answered.asked {r : Request} {x : Operand × Builder} (hx : Answered b r x)
    (hr : ∀ o ∈ r.operands, Combinable b.step o) :
    Asked b [x.1] (codes ++ r.askedCodes) (ranges ++ r.askedRanges) x.2 := by
  cases hx with
  | given hcombination ho _ =>
      obtain ⟨hcodes, hranges⟩ := asked_of_isCombination hcombination
      rw [hcodes, hranges, List.append_nil, List.append_nil]
      refine asked_known h fun p hp => ?_
      rw [List.mem_singleton.mp hp]
      cases ho with
      | inl ho => exact hr _ ho
      | inr ho =>
          obtain ⟨_, rfl⟩ := ho
          intro id hid
          cases hid
  | again hits ho => exact asked_again h ho hits
  | computed hop hnew =>
      cases hcombination : r.isCombination with
      | true =>
          obtain ⟨hcodes, hranges⟩ := asked_of_isCombination hcombination
          rw [hcodes, hranges, List.append_nil, List.append_nil]
          exact asked_newCombination h hcombination hop hr
      | false =>
          cases r with
          | equal code =>
              cases hop
              rw [Request.askedRanges, List.append_nil]
              exact asked_newCode h hnew
          | range | byteTest => cases hop
          | any | all | not => cases hcombination
  | @bounded lo hi hnew =>
      rw [Request.askedCodes, List.append_nil]
      exact asked_newRange h hnew

theorem asked_any (os : List Operand) (hos : ∀ o ∈ os, Combinable b.step o) :
    Asked b [(b.any os).1] codes ranges (b.any os).2 := by
  simpa [Request.askedCodes, Request.askedRanges] using (b.answered_any os).asked h hos

theorem asked_all (os : List Operand) (hos : ∀ o ∈ os, Combinable b.step o) :
    Asked b [(b.all os).1] codes ranges (b.all os).2 := by
  simpa [Request.askedCodes, Request.askedRanges] using (b.answered_all os).asked h hos

theorem asked_not {o : Operand} (ho : Combinable b.step o) :
    Asked b [(b.not o).1] codes ranges (b.not o).2 := by
  simpa [Request.askedCodes, Request.askedRanges] using
    (b.answered_not o).asked h (List.forall_mem_singleton.mpr ho)

theorem asked_answerAll (rs : List Request) (hrs : ∀ r ∈ rs, r.isComparison = true) :
    Asked b (b.answerAll rs).1 (codes ++ rs.flatMap Request.askedCodes)
      (ranges ++ rs.flatMap Request.askedRanges) (b.answerAll rs).2 := by
  induction rs generalizing b codes ranges with
  | nil =>
      rw [List.flatMap_nil, List.flatMap_nil, List.append_nil, List.append_nil]
      exact asked_known h (List.forall_mem_nil _)
  | cons r rs ih =>
      obtain ⟨hr, hrs⟩ := List.forall_mem_cons.mp hrs
      have hfirst := (b.answered_of_isComparison hr).asked h
        (by simp [Request.operands_of_isComparison hr])
      rw [List.flatMap_cons, List.flatMap_cons, ← List.append_assoc, ← List.append_assoc]
      exact hfirst.trans (ih hfirst.recorded hrs)

theorem asked_byteTest (set : ByteSet) :
    Asked b [(b.byteTest set).1] (codes ++ loneCodes set.runs) (ranges ++ wideRuns set.runs)
      (b.byteTest set).2 := by
  have hall := asked_answerAll h (set.runs.flatMap comparisons) fun _ => isComparison_of_mem_runs
  rw [flatMap_askedCodes, flatMap_askedRanges] at hall
  rw [byteTest_eq_any]
  exact hall.last (asked_any hall.recorded _ hall.combinable)

end Requests

/-! ### Reported comparisons -/

theorem codeLe_total (c d : UInt8) : decide (c ≤ d) = true ∨ decide (d ≤ c) = true := by
  simpa using UInt8.le_total c d

theorem codeLe_trans {c d e : UInt8} (h : decide (c ≤ d) = true) (h' : decide (d ≤ e) = true) :
    decide (c ≤ e) = true := by
  rw [decide_eq_true_eq] at *
  exact UInt8.le_trans h h'

theorem rangeLe_iff {r r' : UInt8 × UInt8} :
    rangeLe r r' = true ↔ r.1 < r'.1 ∨ r.1 = r'.1 ∧ r.2 ≤ r'.2 := by
  simp [rangeLe]

theorem rangeLe_total (r r' : UInt8 × UInt8) : rangeLe r r' = true ∨ rangeLe r' r = true := by
  simp only [rangeLe_iff, UInt8.lt_iff_toNat_lt, UInt8.le_iff_toNat_le, ← UInt8.toNat_inj]
  omega

theorem rangeLe_trans {r r' r'' : UInt8 × UInt8} (h : rangeLe r r' = true)
    (h' : rangeLe r' r'' = true) : rangeLe r r'' = true := by
  simp only [rangeLe_iff, UInt8.lt_iff_toNat_lt, UInt8.le_iff_toNat_le, ← UInt8.toNat_inj] at *
  omega

/-- The codes that are reported are those of the step, ascending. -/
theorem Recorded.testedCodes (h : b.Recorded codes ranges) :
    b.testedCodes.Pairwise (· < ·) ∧ ∀ c, c ∈ b.testedCodes ↔ c ∈ codesOf b.step := by
  have hperm : b.testedCodes.Perm codes.eraseDups :=
    (sortBy_perm _ _).trans (h.codeKeys ▸ (List.reverse_perm _).symm)
  constructor
  · have hnodup : b.testedCodes.Nodup := hperm.nodup_iff.mpr (nodup_eraseDups codes)
    refine (pairwise_sortBy codeLe_total codeLe_trans _).imp₂ ?_ hnodup
    intro c d hle hne
    exact UInt8.lt_of_le_of_ne (of_decide_eq_true hle) hne
  · intro c
    rw [hperm.mem_iff, h.emittedCodes]

theorem Recorded.testedRanges (h : b.Recorded codes ranges) :
    b.testedRanges.Pairwise (fun r r' => r.1 < r'.1 ∨ r.1 = r'.1 ∧ r.2 < r'.2) ∧
      ∀ r, r ∈ b.testedRanges ↔ r ∈ rangesOf b.step := by
  have hperm : b.testedRanges.Perm ranges.eraseDups :=
    (sortBy_perm _ _).trans (h.rangeKeys ▸ (List.reverse_perm _).symm)
  constructor
  · have hnodup : b.testedRanges.Nodup := hperm.nodup_iff.mpr (nodup_eraseDups ranges)
    refine (pairwise_sortBy rangeLe_total rangeLe_trans _).imp₂ ?_ hnodup
    intro r r' hle hne
    cases rangeLe_iff.mp hle with
    | inl hlt => exact .inl hlt
    | inr heq =>
        exact .inr ⟨heq.1, UInt8.lt_of_le_of_ne heq.2 fun h => hne (Prod.ext heq.1 h)⟩
  · intro r
    rw [hperm.mem_iff, h.emittedRanges]

end Builder

/-! ### The transition step -/

/-- The set is that of the label on an edge into a state other than the start, or, if that edge is
negated, the set that it excludes. -/
def Dfa.TestedOnEntry (d : Dfa) (set : ByteSet) : Prop :=
  ∃ s t l, t ≠ 0 ∧ t < d.states.size ∧ d.labelBetween? s t = some l ∧
    set = if l.negated then d.listedBytes s else l.bytes

namespace Inflow

open Builder

/-- The set that is tested for the edge from `source` under `l`. -/
def testedSet (a : Inflow) (source : Nat) (l : Label) : ByteSet :=
  if l.negated then a.exclusions.getD source .empty else l.bytes

/-- The sets that are tested for some edges, run by run. -/
def testedRuns (a : Inflow) (edges : List (Nat × Label)) : List (UInt8 × UInt8) :=
  edges.flatMap fun e => (a.testedSet e.1 e.2).runs

section Emit

variable (a : Inflow) {b : Builder} {codes : List UInt8} {ranges : List (UInt8 × UInt8)}
  (h : b.Recorded codes ranges)
include h

theorem asked_emitTest (source : Nat) (l : Label) :
    Asked b [(a.emitTest source l b).1] (codes ++ loneCodes (a.testedSet source l).runs)
      (ranges ++ wideRuns (a.testedSet source l).runs) (a.emitTest source l b).2 := by
  unfold emitTest testedSet
  split
  · have htest := asked_byteTest h (a.exclusions.getD source .empty)
    exact htest.last (asked_not htest.recorded (htest.combinable _ (List.mem_singleton_self _)))
  · exact asked_byteTest h l.bytes

theorem asked_emitFired (edges : List (Nat × Label)) :
    Asked b (a.emitFired edges b).1 (codes ++ loneCodes (a.testedRuns edges))
      (ranges ++ wideRuns (a.testedRuns edges)) (a.emitFired edges b).2 := by
  induction edges generalizing b codes ranges with
  | nil =>
      simp only [testedRuns, List.flatMap_nil, loneCodes, wideRuns, List.filter_nil,
        List.append_nil]
      exact asked_known h (by simp [emitFired])
  | cons edge edges ih =>
      have htest := asked_emitTest a h edge.1 edge.2
      have hfired := asked_all htest.recorded [.state edge.1, (a.emitTest edge.1 edge.2 b).1] (by
        refine List.forall_mem_cons.mpr ⟨?_, htest.combinable⟩
        intro id hid
        cases hid)
      have hboth := htest.last hfired
      exact hboth.trans_runs (ih hboth.recorded)

theorem asked_emitStates (targets : List Nat) :
    Asked b (a.emitStates targets b).1
      (codes ++ loneCodes (a.testedRuns (targets.flatMap a.predecessors)))
      (ranges ++ wideRuns (a.testedRuns (targets.flatMap a.predecessors)))
      (a.emitStates targets b).2 := by
  induction targets generalizing b codes ranges with
  | nil =>
      simp only [testedRuns, List.flatMap_nil, loneCodes, wideRuns, List.filter_nil,
        List.append_nil]
      exact asked_known h (by simp [emitStates])
  | cons target targets ih =>
      have hfired := asked_emitFired a h (a.predecessors target)
      have hvalue := hfired.last (asked_any hfired.recorded _ hfired.combinable)
      have hstored := hvalue.trans (asked_store hvalue.recorded
        (.storeState target ((a.emitFired (a.predecessors target) b).2.any
          (a.emitFired (a.predecessors target) b).1).1) rfl rfl hvalue.combinable)
      rw [List.flatMap_cons, testedRuns, List.flatMap_append]
      exact hstored.trans_runs (ih hstored.recorded)

end Emit

/-- The runs that the transition step tests. -/
def transitionRuns (a : Inflow) : List (UInt8 × UInt8) :=
  a.testedRuns (((List.range a.stateCount).drop 1).flatMap a.predecessors)

/-- The transition step asks for its runs and for nothing else. -/
theorem transitionCode_recorded (a : Inflow) :
    ∃ b : Builder, b.Recorded (loneCodes a.transitionRuns) (wideRuns a.transitionRuns) ∧
      a.transitionCode = ⟨b.step, b.testedRanges, b.testedCodes, b.hits⟩ := by
  let states := a.emitStates ((List.range a.stateCount).drop 1) .empty
  let moved := states.2.any states.1
  let flagged := moved.2.store (.storeChanged moved.1)
  let idle := flagged.not moved.1
  have hstates := asked_emitStates a recorded_empty ((List.range a.stateCount).drop 1)
  have hmoved := hstates.last (asked_any hstates.recorded states.1 hstates.combinable)
  have hflagged := hmoved.trans (asked_store hmoved.recorded (.storeChanged moved.1) rfl rfl
    hmoved.combinable)
  have hidle := asked_not hflagged.recorded (hflagged.combinable moved.1 List.mem_cons_self)
  have hall := asked_store hidle.recorded (.storeState 0 idle.1) rfl rfl hidle.combinable
  exact ⟨_, hall.recorded, rfl⟩

/-! ### Comparisons and edges -/

theorem testedSet_ofDfa {d : Dfa} {a : Inflow} (ha : ofDfa d = .ok a) {s t : Nat} {l : Label}
    (h : d.labelBetween? s t = some l) :
    a.testedSet s l = if l.negated then d.listedBytes s else l.bytes := by
  have hedge := Dfa.mem_edges_of_labelBetween? h
  rw [testedSet, exclusions_ofDfa ha (Dfa.lt_size_of_mem_edges hedge)]

/-- The transition step tests the maximal runs of the sets on the edges into the states that it
computes. -/
theorem mem_transitionRuns {d : Dfa} {a : Inflow} (ha : ofDfa d = .ok a) {lo hi : UInt8} :
    (lo, hi) ∈ a.transitionRuns ↔ ∃ set, d.TestedOnEntry set ∧ set.MaximalRun lo hi := by
  simp only [transitionRuns, testedRuns, List.mem_flatMap, mem_drop_one_range,
    stateCount_ofDfa ha, ByteSet.mem_runs_iff]
  constructor
  · rintro ⟨⟨s, l⟩, ⟨t, ⟨hne, hlt⟩, hedge⟩, hrun⟩
    have hlabel := ((mem_predecessors_iff ha).mp hedge).2
    rw [testedSet_ofDfa ha hlabel] at hrun
    exact ⟨_, ⟨s, t, l, hne, hlt, hlabel, rfl⟩, hrun⟩
  · rintro ⟨_, ⟨s, t, l, hne, hlt, hlabel, rfl⟩, hrun⟩
    rw [← testedSet_ofDfa ha hlabel] at hrun
    exact ⟨(s, l), ⟨t, ⟨hne, hlt⟩, (mem_predecessors_iff ha).mpr ⟨hlt, hlabel⟩⟩, hrun⟩

/-- The transition step makes each comparison once and reports exactly the comparisons it makes, in
ascending order. A range is a maximal run, of at least the threshold's width, of a set on an edge
into a state other than the start; the codes of the narrower runs are tested for equality. -/
theorem comparisons_once_and_reported {d : Dfa} {a : Inflow} (ha : ofDfa d = .ok a) :
    let code := a.transitionCode
    (∀ (i j : Nat) c, code.step[i]? = some (.equals c) → code.step[j]? = some (.equals c) →
        i = j) ∧
      (∀ (i j : Nat) r, code.step[i]?.bind (testedRange? code.step) = some r →
        code.step[j]?.bind (testedRange? code.step) = some r → i = j) ∧
      (code.equalities.Pairwise (· < ·) ∧ ∀ c, c ∈ code.equalities ↔ .equals c ∈ code.step) ∧
      (code.ranges.Pairwise (fun r r' => r.1 < r'.1 ∨ r.1 = r'.1 ∧ r.2 < r'.2) ∧
        ∀ r, r ∈ code.ranges ↔ ∃ op ∈ code.step, testedRange? code.step op = some r) ∧
      (∀ lo hi, (lo, hi) ∈ code.ranges ↔ rangeThreshold ≤ ByteSet.width (lo, hi) ∧
        ∃ set, d.TestedOnEntry set ∧ set.MaximalRun lo hi) ∧
      ∀ c, c ∈ code.equalities ↔ ∃ lo hi, lo ≤ c ∧ c ≤ hi ∧
        ByteSet.width (lo, hi) < rangeThreshold ∧
        ∃ set, d.TestedOnEntry set ∧ set.MaximalRun lo hi := by
  obtain ⟨b, hb, hcode⟩ := a.transitionCode_recorded
  obtain ⟨hcodeOrder, hcodes⟩ := hb.testedCodes
  obtain ⟨hrangeOrder, hranges⟩ := hb.testedRanges
  rw [hcode]
  refine ⟨?_, ?_, ⟨hcodeOrder, ?_⟩, ⟨hrangeOrder, ?_⟩, ?_, ?_⟩
  · intro i j c hi hj
    have hnodup : (codesOf b.step).Nodup := hb.emittedCodes ▸ nodup_eraseDups _
    have hcode : ∀ k : Nat, b.step[k]? = some (.equals c) →
        b.step[k]?.bind Op.code? = some c := by
      intro k hk
      rw [hk]
      rfl
    exact index_unique hnodup (hcode i hi) (hcode j hj)
  · intro i j r hi hj
    have hnodup : (rangesOf b.step).Nodup := hb.emittedRanges ▸ nodup_eraseDups _
    exact index_unique hnodup hi hj
  · intro c
    rw [hcodes, mem_codesOf]
  · intro r
    rw [hranges, rangesOf, List.mem_filterMap]
  · intro lo hi
    rw [hranges, hb.emittedRanges, List.mem_eraseDups, wideRuns, List.mem_filter,
      mem_transitionRuns ha, and_comm, isWide, decide_eq_true_eq]
  · intro c
    rw [hcodes, hb.emittedCodes, List.mem_eraseDups, mem_loneCodes]
    simp only [mem_transitionRuns ha]

/-- Both cases of letters are tested as ranges, the small ones for two edges. The digits are listed
on the negated edge only. -/
def lettersShared : Dfa :=
  ⟨#[⟨"A", [], false, [(⟨.ofRange 97 122, false⟩, 1)]⟩,
    ⟨"B", [], false, [(⟨.ofRange 97 122, false⟩, 0), (⟨.ofRange 48 49, true⟩, 2)]⟩,
    ⟨"C", [], true, [(⟨.ofRange 65 90, false⟩, 2)]⟩]⟩

theorem comparisons_lettersShared :
    ∃ a, ofDfa lettersShared = .ok a ∧ a.transitionCode.ranges = [(65, 90), (97, 122)] ∧
      a.transitionCode.equalities = [48, 49] ∧
      (∀ c, .equals c ∈ a.transitionCode.step ↔ c = 48 ∨ c = 49) ∧
      ∃ set, lettersShared.TestedOnEntry set ∧ set.MaximalRun 97 122 := by
  have htested : (ofDfa lettersShared).toOption.any (fun a =>
      a.transitionCode.ranges = [(65, 90), (97, 122)] &&
        a.transitionCode.equalities = [48, 49]) = true := by
    decide +kernel
  obtain ⟨a, ha, htested⟩ := Outcome.exists_ok_of_any htested
  simp only [Bool.and_eq_true, decide_eq_true_eq] at htested
  obtain ⟨hranges, hequalities⟩ := htested
  obtain ⟨_, _, ⟨_, hcodes⟩, _, hruns, _⟩ := comparisons_once_and_reported ha
  refine ⟨a, ha, hranges, hequalities, ?_, ?_⟩
  · intro c
    rw [← hcodes, hequalities]
    simp
  · exact ((hruns 97 122).mp (by simp [hranges])).2

end Inflow

end PatternCircuit
