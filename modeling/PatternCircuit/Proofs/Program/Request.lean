import PatternCircuit.Program.Builder
import PatternCircuit.Proofs.Sorting

/-! # Requests to a builder

A builder answers a request with what it was given, with a result that it has kept, or with the
result of operations that it appends. Whatever is claimed of the answers, of their values, of the
form of the step or of its comparisons, is a matter of these cases. A set is tested by comparisons,
one after the other, and a disjunction of their answers. -/

namespace PatternCircuit.Builder

/-- What a builder can be asked for. -/
inductive Request where
  | equal (code : UInt8)
  | range (lo hi : UInt8)
  | any (operands : List Operand)
  | all (operands : List Operand)
  | not (operand : Operand)
  | byteTest (set : ByteSet)
deriving DecidableEq

namespace Request

def operands : Request → List Operand
  | any os | all os => os
  | not o => [o]
  | equal _ | range _ _ | byteTest _ => []

/-- The answer, and the builder behind it. -/
def answer (b : Builder) : Request → Operand × Builder
  | equal code => b.equal code
  | range lo hi => b.range lo hi
  | any os => b.any os
  | all os => b.all os
  | not o => b.not o
  | byteTest set => b.byteTest set

/-- The function that is asked for, of the input byte and the values of the operands. -/
def value (input : UInt8) (read : Operand → Bool) : Request → Bool
  | equal code => input == code
  | range lo hi => lo ≤ input && input ≤ hi
  | any os => os.any read
  | all os => os.all read
  | not o => !read o
  | byteTest set => set.contains input

theorem value_congr {input : UInt8} {read read' : Operand → Bool} {r : Request}
    (h : ∀ o ∈ r.operands, read o = read' o) : r.value input read = r.value input read' := by
  cases r with
  | any os =>
      rw [value, value, Bool.eq_iff_iff, List.any_eq_true, List.any_eq_true]
      exact exists_congr fun o => and_congr_right fun ho => by rw [h o ho]
  | all os =>
      rw [value, value, Bool.eq_iff_iff, List.all_eq_true, List.all_eq_true]
      exact forall₂_congr fun o ho => by rw [h o ho]
  | not o =>
      rw [value, value, h o (List.mem_singleton_self o)]
  | equal code => rfl
  | range lo hi => rfl
  | byteTest set => rfl

/-! ### Operands that count -/

/-- The operands that a disjunction is computed from. -/
def disjuncts (os : List Operand) : List Operand :=
  (sortBy Operand.le (os.filter fun o => o != .const false)).eraseDups

/-- The operands that a conjunction is computed from. -/
def conjuncts (os : List Operand) : List Operand :=
  (os.filter fun o => o != .const true).eraseDups

theorem mem_disjuncts {os : List Operand} {o : Operand} :
    o ∈ disjuncts os ↔ o ∈ os ∧ o ≠ .const false := by
  rw [disjuncts, List.mem_eraseDups, mem_sortBy, List.mem_filter, bne_iff_ne]

theorem mem_conjuncts {os : List Operand} {o : Operand} :
    o ∈ conjuncts os ↔ o ∈ os ∧ o ≠ .const true := by
  rw [conjuncts, List.mem_eraseDups, List.mem_filter, bne_iff_ne]

/-- Operands that are constantly false can be left out of a disjunction. -/
theorem any_disjuncts {read : Operand → Bool} (h : read (.const false) = false)
    (os : List Operand) : (disjuncts os).any read = os.any read := by
  rw [Bool.eq_iff_iff, List.any_eq_true, List.any_eq_true]
  refine exists_congr fun o => ?_
  rw [mem_disjuncts]
  constructor
  · rintro ⟨⟨ho, _⟩, hread⟩
    exact ⟨ho, hread⟩
  · rintro ⟨ho, hread⟩
    refine ⟨⟨ho, ?_⟩, hread⟩
    rintro rfl
    rw [h] at hread
    cases hread

/-- Operands that are constantly true can be left out of a conjunction. -/
theorem all_conjuncts {read : Operand → Bool} (h : read (.const true) = true)
    (os : List Operand) : (conjuncts os).all read = os.all read := by
  rw [Bool.eq_iff_iff, List.all_eq_true, List.all_eq_true]
  refine forall_congr' fun o => ?_
  rw [mem_conjuncts]
  constructor
  · intro hread ho
    by_cases heq : o = .const true
    · rw [heq, h]
    · exact hread ⟨ho, heq⟩
  · rintro hread ⟨ho, _⟩
    exact hread ho

/-! ### Kept results -/

/-- The request under which the result is kept. -/
def key : Request → Request
  | any os => any (disjuncts os)
  | r => r

theorem operands_key_subset {r : Request} {o : Operand} (h : o ∈ r.key.operands) :
    o ∈ r.operands := by
  cases r with
  | any os => exact (mem_disjuncts.mp h).1
  | _ => exact h

theorem value_key {read : Operand → Bool} (h : ∀ value, read (.const value) = value)
    (input : UInt8) (r : Request) : r.key.value input read = r.value input read := by
  cases r with
  | any os => exact any_disjuncts (h false) os
  | _ => rfl

/-- The operation that computes a request by itself. -/
def op? : Request → Option Op
  | equal code => some (.equals code)
  | any os => some (.disj (disjuncts os))
  | all os => some (.conj (conjuncts os))
  | not o => some (.neg o)
  | range _ _ | byteTest _ => none

theorem isValue_of_op? {r : Request} {op : Op} (h : r.op? = some op) : op.isValue = true := by
  cases r <;> cases h <;> rfl

theorem mem_operands_of_op? {r : Request} {op : Op} (h : r.op? = some op) {o : Operand}
    (ho : o ∈ op.operands) : o ∈ r.operands := by
  cases r <;> cases h
  case equal => cases ho
  case any => exact (mem_disjuncts.mp ho).1
  case all => exact (mem_conjuncts.mp ho).1
  case not => exact ho

def isComparison : Request → Bool
  | equal _ | range _ _ => true
  | any _ | all _ | not _ | byteTest _ => false

def isCombination : Request → Bool
  | any _ | all _ | not _ => true
  | equal _ | range _ _ | byteTest _ => false

theorem operands_of_isComparison {r : Request} (h : r.isComparison = true) : r.operands = [] := by
  cases r <;> first | rfl | cases h

end Request

open Request

/-- The results that are kept, with the requests that they answer. -/
def kept (b : Builder) : List (Request × Operand) :=
  b.equalities.map (fun e => (.equal e.1, e.2)) ++
    b.ranges.map (fun e => (.range e.1.1 e.1.2, e.2)) ++
    b.disjunctions.map fun e => (.any e.1, e.2)

/-- Keeps the result of a request that may come again. -/
def keep (b : Builder) (o : Operand) : Request → Builder
  | .equal code => { b with equalities := (code, o) :: b.equalities }
  | .range lo hi => { b with ranges := ((lo, hi), o) :: b.ranges }
  | .any os => { b with disjunctions := (os, o) :: b.disjunctions }
  | .all _ | .not _ | .byteTest _ => b

theorem mem_kept_equal {b : Builder} {code : UInt8} {o : Operand} :
    (.equal code, o) ∈ b.kept ↔ (code, o) ∈ b.equalities := by
  simp [kept]

theorem mem_kept_range {b : Builder} {lo hi : UInt8} {o : Operand} :
    (.range lo hi, o) ∈ b.kept ↔ ((lo, hi), o) ∈ b.ranges := by
  simp [kept]

theorem mem_kept_any {b : Builder} {os : List Operand} {o : Operand} :
    (.any os, o) ∈ b.kept ↔ (os, o) ∈ b.disjunctions := by
  simp [kept]

theorem ops_keep (b : Builder) (o : Operand) (r : Request) : (b.keep o r).ops = b.ops := by
  cases r <;> rfl

theorem mem_kept_keep {b : Builder} {o : Operand} {r : Request} {e : Request × Operand}
    (h : e ∈ (b.keep o r).kept) : e = (r, o) ∨ e ∈ b.kept := by
  cases r <;> simp only [kept, keep, List.map_cons, List.mem_append, List.mem_cons] at h ⊢ <;> tauto

section Table

variable {κ : Type} [BEq κ] [LawfulBEq κ] {table : List (κ × Operand)} {k : κ}

theorem mem_of_lookup {o : Operand} (h : table.lookup k = some o) : (k, o) ∈ table := by
  obtain ⟨l₁, l₂, hl, _⟩ := List.lookup_eq_some_iff.mp h
  simp [hl]

theorem notMem_of_lookup (h : table.lookup k = none) (o : Operand) : (k, o) ∉ table := by
  intro hmem
  simpa using List.lookup_eq_none_iff.mp h (k, o) hmem

end Table

/-! ### Answers -/

/-- The conjunction of a bound from below and one from above. -/
def bounds (b : Builder) (lo hi : UInt8) : Operand × Builder :=
  let (lower, b) := b.emit (.atLeast lo)
  let (upper, b) := b.emit (.atMost hi)
  b.emit (.conj [lower, upper])

/-- What a request that is not a test of a set does to a builder. -/
inductive Answered (b : Builder) : Request → Operand × Builder → Prop where
  /-- A combination has the value of a constant or of one of the operands. -/
  | given {r : Request} {o : Operand} (hr : r.isCombination = true)
      (ho : o ∈ r.operands ∨ ∃ value, o = .const value)
      (hvalue : ∀ input read, (∀ value, read (.const value) = value) →
        read o = r.value input read) : Answered b r (o, b)
  /-- The result was kept. -/
  | again {r : Request} {o : Operand} (hits : Hits) (ho : (r.key, o) ∈ b.kept) :
      Answered b r (o, { b with hits := hits })
  /-- One operation is appended. -/
  | computed {r : Request} {op : Op} (hop : r.op? = some op) (hnew : ∀ o, (r.key, o) ∉ b.kept) :
      Answered b r ((b.emit op).1, (b.emit op).2.keep (b.emit op).1 r.key)
  /-- Two bounds and their conjunction are appended. -/
  | bounded {lo hi : UInt8} (hnew : ∀ o, (.range lo hi, o) ∉ b.kept) :
      Answered b (.range lo hi)
        ((b.bounds lo hi).1, (b.bounds lo hi).2.keep (b.bounds lo hi).1 (.range lo hi))

variable (b : Builder)

theorem answered_equal (code : UInt8) : Answered b (.equal code) (b.equal code) := by
  unfold equal
  cases hlookup : b.equalities.lookup code with
  | some o => exact .again _ (mem_kept_equal.mpr (mem_of_lookup hlookup))
  | none =>
      exact .computed (r := .equal code) rfl fun o ho =>
        notMem_of_lookup hlookup o (mem_kept_equal.mp ho)

theorem answered_range (lo hi : UInt8) : Answered b (.range lo hi) (b.range lo hi) := by
  unfold range
  cases hlookup : b.ranges.lookup (lo, hi) with
  | some o => exact .again _ (mem_kept_range.mpr (mem_of_lookup hlookup))
  | none => exact .bounded fun o ho => notMem_of_lookup hlookup o (mem_kept_range.mp ho)

theorem answered_any (os : List Operand) : Answered b (.any os) (b.any os) := by
  rw [Builder.any, ← disjuncts]
  split
  · rename_i htrue
    refine .given rfl (.inr ⟨true, rfl⟩) fun input read hread => ?_
    rw [hread]
    exact (List.any_eq_true.mpr ⟨.const true, by simpa using htrue, hread true⟩).symm
  · split
    · rename_i hnone
      refine .given rfl (.inr ⟨false, rfl⟩) fun input read hread => ?_
      rw [hread, value, ← any_disjuncts (hread false), hnone]
      rfl
    · rename_i o hone
      have ho : o ∈ disjuncts os := by simp [hone]
      refine .given rfl (.inl (mem_disjuncts.mp ho).1) fun input read hread => ?_
      rw [value, ← any_disjuncts (hread false), hone, List.any_cons, List.any_nil, Bool.or_false]
    · cases hlookup : b.disjunctions.lookup (disjuncts os) with
      | some o => exact .again _ (mem_kept_any.mpr (mem_of_lookup hlookup))
      | none =>
          exact .computed (r := .any os) rfl fun o ho =>
            notMem_of_lookup hlookup o (mem_kept_any.mp ho)

theorem answered_all (os : List Operand) : Answered b (.all os) (b.all os) := by
  rw [Builder.all, ← conjuncts]
  split
  · rename_i hfalse
    refine .given rfl (.inr ⟨false, rfl⟩) fun input read hread => ?_
    rw [hread]
    exact (List.all_eq_false.mpr ⟨.const false, by simpa using hfalse, by simp [hread]⟩).symm
  · split
    · rename_i hnone
      refine .given rfl (.inr ⟨true, rfl⟩) fun input read hread => ?_
      rw [hread, value, ← all_conjuncts (hread true), hnone]
      rfl
    · rename_i o hone
      have ho : o ∈ conjuncts os := by simp [hone]
      refine .given rfl (.inl (mem_conjuncts.mp ho).1) fun input read hread => ?_
      rw [value, ← all_conjuncts (hread true), hone, List.all_cons, List.all_nil, Bool.and_true]
    · exact .computed (r := .all os) rfl (by simp [key, kept])

theorem answered_not (o : Operand) : Answered b (.not o) (b.not o) := by
  cases o with
  | const value =>
      refine .given rfl (.inr ⟨!value, rfl⟩) fun input read hread => ?_
      rw [Request.value, hread, hread]
  | _ => exact .computed (r := .not _) rfl (by simp [key, kept])

theorem answered_or_byteTest (r : Request) :
    Answered b r (r.answer b) ∨ ∃ set, r = .byteTest set := by
  cases r with
  | equal code => exact .inl (b.answered_equal code)
  | range lo hi => exact .inl (b.answered_range lo hi)
  | any os => exact .inl (b.answered_any os)
  | all os => exact .inl (b.answered_all os)
  | not o => exact .inl (b.answered_not o)
  | byteTest set => exact .inr ⟨set, rfl⟩

theorem answered_of_isComparison {r : Request} (h : r.isComparison = true) :
    Answered b r (r.answer b) := by
  refine (b.answered_or_byteTest r).resolve_right ?_
  rintro ⟨set, rfl⟩
  cases h

/-! ### Tests of a set -/

/-- The answers to some requests, one after the other. -/
def answerAll (b : Builder) : List Request → List Operand × Builder
  | [] => ([], b)
  | r :: rs =>
      let (o, b) := r.answer b
      let (os, b) := b.answerAll rs
      (o :: os, b)

/-- The comparisons for one run: its ends if it is long, otherwise its codes one by one. -/
def comparisons (run : UInt8 × UInt8) : List Request :=
  if rangeThreshold ≤ run.2.toNat - run.1.toNat + 1 then [.range run.1 run.2]
  else (ByteSet.interval run.1 run.2).map .equal

theorem isComparison_of_mem {run : UInt8 × UInt8} {r : Request} (h : r ∈ comparisons run) :
    r.isComparison = true := by
  unfold comparisons at h
  split at h
  · rw [List.mem_singleton.mp h]
    rfl
  · obtain ⟨code, _, rfl⟩ := List.mem_map.mp h
    rfl

theorem answerAll_append (rs rs' : List Request) : b.answerAll (rs ++ rs') =
    ((b.answerAll rs).1 ++ ((b.answerAll rs).2.answerAll rs').1,
      ((b.answerAll rs).2.answerAll rs').2) := by
  induction rs generalizing b with
  | nil => rfl
  | cons r rs ih =>
      simp only [List.cons_append, answerAll]
      rw [ih]

theorem equalEach_eq_answerAll (codes : List UInt8) :
    b.equalEach codes = b.answerAll (codes.map .equal) := by
  induction codes generalizing b with
  | nil => rfl
  | cons code codes ih =>
      simp only [equalEach, List.map_cons, answerAll, answer]
      rw [ih]

theorem testRun_eq_answerAll (run : UInt8 × UInt8) :
    b.testRun run = b.answerAll (comparisons run) := by
  unfold testRun comparisons
  split
  · rfl
  · exact b.equalEach_eq_answerAll _

theorem testRuns_eq_answerAll (runs : List (UInt8 × UInt8)) :
    b.testRuns runs = b.answerAll (runs.flatMap comparisons) := by
  induction runs generalizing b with
  | nil => rfl
  | cons run runs ih =>
      simp only [testRuns, List.flatMap_cons]
      rw [answerAll_append, testRun_eq_answerAll, ih]

/-- A set is tested by its comparisons and the disjunction of their answers. -/
theorem byteTest_eq_any (set : ByteSet) : b.byteTest set =
    (b.answerAll (set.runs.flatMap comparisons)).2.any
      (b.answerAll (set.runs.flatMap comparisons)).1 := by
  rw [← testRuns_eq_answerAll]
  rfl

theorem isComparison_of_mem_runs {runs : List (UInt8 × UInt8)} {r : Request}
    (h : r ∈ runs.flatMap comparisons) : r.isComparison = true := by
  obtain ⟨run, _, hr⟩ := List.mem_flatMap.mp h
  exact isComparison_of_mem hr

end PatternCircuit.Builder
