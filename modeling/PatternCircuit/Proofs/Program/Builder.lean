import PatternCircuit.Program.Evaluation
import PatternCircuit.Proofs.Label
import PatternCircuit.Proofs.Program.Request

/-! # What the steps of a builder compute

An operand that a builder answers with keeps its value when the builder goes on, so an earlier
result can stand for a repeated request. -/

namespace PatternCircuit

/-- The result of an operation, given the input byte and the values of its operands. -/
def Op.result (input : UInt8) (read : Operand → Bool) : Op → Bool
  | equals code => input == code
  | atLeast bound => bound ≤ input
  | atMost bound => input ≤ bound
  | conj operands => operands.all read
  | disj operands => operands.any read
  | neg operand => !read operand
  | storeState _ _ | storeChanged _ | storeCarry _ | disclose _ => false

namespace StepRun

theorem nodes_exec (f : Frame) (r : StepRun) (op : Op) :
    (exec f r op).nodes = r.nodes.push (op.result f.input (f.read r.nodes)) := by
  cases op <;> rfl

theorem stores_exec_of_isValue (f : Frame) (r : StepRun) {op : Op} (h : op.isValue = true) :
    (exec f r op).stores = r.stores := by
  cases op <;> first | rfl | cases h

theorem size_nodes_foldl (f : Frame) (ops : List Op) (r : StepRun) :
    (ops.foldl (exec f) r).nodes.size = r.nodes.size + ops.length := by
  induction ops generalizing r with
  | nil => rfl
  | cons op ops ih =>
      rw [List.foldl_cons, ih, nodes_exec, Array.size_push, List.length_cons]
      omega

end StepRun

namespace Builder

variable (count : Nat)

/-- The run of some operations. -/
def run (ops : Array Op) (f : Frame) : StepRun := runStep ops.toList f count

/-- The value of an operand after some operations. -/
def read (ops : Array Op) (f : Frame) (o : Operand) : Bool := f.read (run count ops f).nodes o

/-- The operand is no result of an operation still to come. -/
def Known (ops : Array Op) : Operand → Prop
  | .node id => id < ops.size
  | _ => True

theorem run_push (ops : Array Op) (f : Frame) (op : Op) :
    run count (ops.push op) f = (run count ops f).exec f op := by
  simp [run, runStep]

theorem size_nodes_run (ops : Array Op) (f : Frame) : (run count ops f).nodes.size = ops.size := by
  rw [run, runStep, StepRun.size_nodes_foldl]
  simp [StepRun.start]

/-- What was known keeps its value. -/
structure Extends (ops ops' : Array Op) : Prop where
  size_le : ops.size ≤ ops'.size
  read : ∀ o, Known ops o → ∀ f, read count ops' f o = read count ops f o

namespace Extends

variable {count} {ops ops' ops'' : Array Op}

theorem refl (ops : Array Op) : Extends count ops ops := ⟨Nat.le_refl _, fun _ _ _ => rfl⟩

theorem known (h : Extends count ops ops') {o : Operand} (ho : Known ops o) : Known ops' o := by
  cases o with
  | node id => exact Nat.lt_of_lt_of_le ho h.size_le
  | _ => trivial

theorem trans (h : Extends count ops ops') (h' : Extends count ops' ops'') :
    Extends count ops ops'' where
  size_le := Nat.le_trans h.size_le h'.size_le
  read o ho f := (h'.read o (h.known ho) f).trans (h.read o ho f)

theorem any_read (h : Extends count ops ops') {os : List Operand} (hos : ∀ o ∈ os, Known ops o)
    (f : Frame) : os.any (Builder.read count ops' f) = os.any (Builder.read count ops f) := by
  rw [Bool.eq_iff_iff, List.any_eq_true, List.any_eq_true]
  refine exists_congr fun o => and_congr_right fun ho => ?_
  rw [h.read o (hos o ho) f]

end Extends

theorem extends_push (ops : Array Op) (op : Op) : Extends count ops (ops.push op) where
  size_le := by simp
  read o ho f := by
    cases o with
    | node id =>
        have hne : id ≠ (run count ops f).nodes.size := by
          rw [size_nodes_run]
          exact Nat.ne_of_lt ho
        simp [read, run_push, StepRun.nodes_exec, Frame.read, Array.getD_eq_getD_getElem?,
          Array.getElem?_push, hne]
    | _ => rfl

theorem read_push (ops : Array Op) (op : Op) (f : Frame) :
    read count (ops.push op) f (.node ops.size) = op.result f.input (read count ops f) := by
  rw [read, run_push, StepRun.nodes_exec, Frame.read, ← size_nodes_run count ops f,
    Array.getD_eq_getD_getElem?, Array.getElem?_push_size]
  rfl

/-- The operand has the value that was asked for. -/
structure Holds (ops : Array Op) (r : Request) (o : Operand) : Prop where
  known : Known ops o
  operands : ∀ p ∈ r.operands, Known ops p
  value : ∀ f, read count ops f o = r.value f.input (read count ops f)

/-- What is appended later changes no value. -/
theorem Holds.extend {count : Nat} {ops ops' : Array Op} {r : Request} {o : Operand}
    (h : Holds count ops r o) (he : Extends count ops ops') : Holds count ops' r o where
  known := he.known h.known
  operands p hp := he.known (h.operands p hp)
  value f := by
    rw [he.read o h.known, h.value]
    exact Request.value_congr fun p hp => (he.read p (h.operands p hp) f).symm

theorem Holds.key {count : Nat} {ops : Array Op} {r : Request} {o : Operand}
    (h : Holds count ops r o) : Holds count ops r.key o where
  known := h.known
  operands p hp := h.operands p (Request.operands_key_subset hp)
  value f := by rw [Request.value_key fun _ => rfl, h.value]

/-- The kept results are what they are kept for. -/
def Sound (b : Builder) : Prop := ∀ e ∈ b.kept, Holds count b.ops e.1 e.2

theorem sound_empty : empty.Sound count := by
  intro e he
  cases he

/-- An extension that keeps the same results. -/
theorem Sound.extend {b b' : Builder} (h : b.Sound count) (he : Extends count b.ops b'.ops)
    (hkept : b'.kept = b.kept) : b'.Sound count := by
  intro e hmem
  exact (h e (hkept ▸ hmem)).extend he

/-- A request is answered: the operand has the wanted value, and nothing is stored. -/
structure Gives (b : Builder) (value : Frame → Bool) (r : Operand × Builder) : Prop where
  sound : r.2.Sound count
  extension : Extends count b.ops r.2.ops
  stores : ∀ f, (run count r.2.ops f).stores = (run count b.ops f).stores
  known : Known r.2.ops r.1
  read : ∀ f, read count r.2.ops f r.1 = value f

/-- A request is answered by operands of which one holds when the wanted value does. -/
structure GivesAny (b : Builder) (value : Frame → Bool) (r : List Operand × Builder) : Prop where
  sound : r.2.Sound count
  extension : Extends count b.ops r.2.ops
  stores : ∀ f, (run count r.2.ops f).stores = (run count b.ops f).stores
  known : ∀ o ∈ r.1, Known r.2.ops o
  read : ∀ f, r.1.any (read count r.2.ops f) = value f

section Combinations

variable {count} {b b' : Builder} {value : Frame → Bool}

theorem Gives.congr {value' : Frame → Bool} {x : Operand × Builder} (h : Gives count b value x)
    (hvalue : ∀ f, value f = value' f) : Gives count b value' x :=
  { h with read := fun f => (h.read f).trans (hvalue f) }

/-- One answer after another; only the last is of interest. -/
theorem Gives.trans {x y : Operand × Builder} {value' : Frame → Bool} (h : Gives count b value x)
    (h' : Gives count x.2 value' y) : Gives count b value' y where
  sound := h'.sound
  extension := h.extension.trans h'.extension
  stores f := (h'.stores f).trans (h.stores f)
  known := h'.known
  read := h'.read

theorem GivesAny.append {b'' : Builder} {os os' : List Operand} {value' : Frame → Bool}
    (hfirst : GivesAny count b value (os, b')) (hrest : GivesAny count b' value' (os', b'')) :
    GivesAny count b (fun f => value f || value' f) (os ++ os', b'') where
  sound := hrest.sound
  extension := hfirst.extension.trans hrest.extension
  stores f := (hrest.stores f).trans (hfirst.stores f)
  known o ho := by
    rcases List.mem_append.mp ho with ho | ho
    · exact hrest.extension.known (hfirst.known o ho)
    · exact hrest.known o ho
  read f := by
    rw [List.any_append, hrest.read, hrest.extension.any_read hfirst.known, hfirst.read]

theorem Gives.toAny {o : Operand} (h : Gives count b value (o, b')) :
    GivesAny count b value ([o], b') where
  sound := h.sound
  extension := h.extension
  stores := h.stores
  known p hp := List.mem_singleton.mp hp ▸ h.known
  read f := by rw [List.any_cons, List.any_nil, Bool.or_false, h.read]

/-- The answer to a request still has the value when the builder has gone on. -/
theorem Gives.holds {r : Request} {x : Operand × Builder} (hr : ∀ p ∈ r.operands, Known b.ops p)
    (h : Gives count b (fun f => r.value f.input (Builder.read count b.ops f)) x) :
    Holds count x.2.ops r x.1 where
  known := h.known
  operands p hp := h.extension.known (hr p hp)
  value f := by
    rw [h.read]
    exact Request.value_congr fun p hp => (h.extension.read p (hr p hp) f).symm

/-- Keeping the answer to a request. -/
theorem Gives.keep {r : Request} {o : Operand} (hr : ∀ p ∈ r.operands, Known b.ops p)
    (h : Gives count b (fun f => r.value f.input (Builder.read count b.ops f)) (o, b')) :
    Gives count b (fun f => r.value f.input (Builder.read count b.ops f))
      (o, b'.keep o r.key) := by
  have hops := b'.ops_keep o r.key
  refine ⟨?_, hops ▸ h.extension, hops ▸ h.stores, hops ▸ h.known, hops ▸ h.read⟩
  intro e he
  rw [hops]
  cases mem_kept_keep he with
  | inr hmem => exact h.sound e hmem
  | inl heq =>
      rw [heq]
      exact (Gives.holds hr h).key

end Combinations

theorem Request.result_of_op? {r : Request} {op : Op} (h : r.op? = some op) (input : UInt8)
    {read : Operand → Bool} (hread : ∀ value, read (.const value) = value) :
    op.result input read = r.value input read := by
  cases r <;> cases h
  case equal => rfl
  case any os => exact Request.any_disjuncts (hread false) os
  case all os => exact Request.all_conjuncts (hread true) os
  case not => rfl

/-- The comparisons for a run decide whether the input lies in it. -/
theorem any_comparisons (run : UInt8 × UInt8) (input : UInt8) (read : Operand → Bool) :
    ((comparisons run).any fun r => r.value input read) =
      (decide (run.1 ≤ input) && decide (input ≤ run.2)) := by
  unfold comparisons
  split
  · simp [Request.value]
  · rw [List.any_map, Bool.eq_iff_iff, List.any_eq_true]
    simp [Request.value]

section Requests

variable {count} {b : Builder} (h : b.Sound count)
include h

/-- An operand that is known already. -/
theorem gives_known (o : Operand) (ho : Known b.ops o) {value : Frame → Bool}
    (hvalue : ∀ f, read count b.ops f o = value f) : Gives count b value (o, b) :=
  ⟨h, .refl b.ops, fun _ => rfl, ho, hvalue⟩

theorem gives_emit (op : Op) (hop : op.isValue = true) :
    Gives count b (fun f => op.result f.input (read count b.ops f)) (b.emit op) where
  sound := h.extend count (extends_push count b.ops op) rfl
  extension := extends_push count b.ops op
  stores f := by
    rw [emit, run_push, StepRun.stores_exec_of_isValue f _ hop]
  known := by simp [Known, emit]
  read f := read_push count b.ops op f

theorem gives_bounds (lo hi : UInt8) :
    Gives count b (fun f => decide (lo ≤ f.input) && decide (f.input ≤ hi)) (b.bounds lo hi) := by
  have hlower := gives_emit h (.atLeast lo) rfl
  have hupper := gives_emit hlower.sound (.atMost hi) rfl
  have hboth := gives_emit hupper.sound
    (.conj [(b.emit (.atLeast lo)).1, ((b.emit (.atLeast lo)).2.emit (.atMost hi)).1]) rfl
  refine ((hlower.trans hupper).trans hboth).congr fun f => ?_
  simp only [Op.result, List.all_cons, List.all_nil, Bool.and_true, hupper.read,
    hupper.extension.read _ hlower.known, hlower.read]

theorem Answered.gives {r : Request} {x : Operand × Builder} (hx : Answered b r x)
    (hr : ∀ o ∈ r.operands, Known b.ops o) :
    Gives count b (fun f => r.value f.input (read count b.ops f)) x := by
  cases hx with
  | given _ ho hvalue =>
      refine gives_known h _ ?_ fun f => hvalue f.input _ fun _ => rfl
      cases ho with
      | inl ho => exact hr _ ho
      | inr ho =>
          obtain ⟨_, rfl⟩ := ho
          trivial
  | again hits ho =>
      have hkept := h _ ho
      refine ⟨h, .refl b.ops, fun _ => rfl, hkept.known, fun f => ?_⟩
      exact (hkept.value f).trans (Request.value_key (fun _ => rfl) f.input r)
  | computed hop _ =>
      have hemit := gives_emit h _ (Request.isValue_of_op? hop)
      exact (hemit.congr fun f => Request.result_of_op? hop f.input fun _ => rfl).keep hr
  | bounded _ => exact (gives_bounds h _ _).keep (r := .range _ _) hr

theorem gives_any (os : List Operand) (hos : ∀ o ∈ os, Known b.ops o) :
    Gives count b (fun f => os.any (read count b.ops f)) (b.any os) :=
  (b.answered_any os).gives h hos

theorem gives_not {o : Operand} (ho : Known b.ops o) :
    Gives count b (fun f => !read count b.ops f o) (b.not o) :=
  (b.answered_not o).gives h (List.forall_mem_singleton.mpr ho)

theorem gives_both {o p : Operand} (ho : Known b.ops o) (hp : Known b.ops p) :
    Gives count b (fun f => read count b.ops f o && read count b.ops f p) (b.all [o, p]) := by
  have hall := (b.answered_all [o, p]).gives h
    (List.forall_mem_cons.mpr ⟨ho, List.forall_mem_singleton.mpr hp⟩)
  refine hall.congr fun f => ?_
  rw [Request.value, List.all_cons, List.all_cons, List.all_nil, Bool.and_true]

/-! ### Tests of the input byte -/

theorem givesAny_nil : GivesAny count b (fun _ => false) ([], b) :=
  ⟨h, .refl b.ops, fun _ => rfl, List.forall_mem_nil _, fun _ => rfl⟩

omit h in
/-- A disjunction of the answers to a request. -/
theorem GivesAny.any {b' : Builder} {os : List Operand} {value : Frame → Bool}
    (hgives : GivesAny count b value (os, b')) : Gives count b value (b'.any os) := by
  have hany := gives_any hgives.sound os hgives.known
  exact ⟨hany.sound, hgives.extension.trans hany.extension,
    fun f => (hany.stores f).trans (hgives.stores f), hany.known,
    fun f => (hany.read f).trans (hgives.read f)⟩

/-- Comparisons read no operands. -/
theorem givesAny_answerAll (rs : List Request) (hrs : ∀ r ∈ rs, r.isComparison = true) :
    GivesAny count b (fun f => rs.any fun r => r.value f.input fun _ => false)
      (b.answerAll rs) := by
  induction rs generalizing b with
  | nil => exact givesAny_nil h
  | cons r rs ih =>
      obtain ⟨hr, hrs⟩ := List.forall_mem_cons.mp hrs
      have hnone := Request.operands_of_isComparison hr
      have hfirst := (b.answered_of_isComparison hr).gives h (by simp [hnone])
      have hvalue : Gives count b (fun f => r.value f.input fun _ => false) (r.answer b) :=
        hfirst.congr fun f => Request.value_congr (by simp [hnone])
      exact hvalue.toAny.append (ih hfirst.sound hrs)

theorem gives_byteTest (set : ByteSet) :
    Gives count b (fun f => set.contains f.input) (b.byteTest set) := by
  have hall := givesAny_answerAll h (set.runs.flatMap comparisons) fun _ => isComparison_of_mem_runs
  rw [byteTest_eq_any]
  refine hall.any.congr fun f => ?_
  rw [List.any_flatMap, Bool.eq_iff_iff, ← ByteSet.covers_runs]
  simp [any_comparisons, ByteSet.covers]

/-- Any request is answered by what it asks for. -/
theorem gives_answer {r : Request} (hr : ∀ o ∈ r.operands, Known b.ops o) :
    Gives count b (fun f => r.value f.input (read count b.ops f)) (r.answer b) := by
  rcases b.answered_or_byteTest r with hanswered | ⟨set, rfl⟩
  · exact hanswered.gives h hr
  · exact gives_byteTest h set

end Requests

end Builder

end PatternCircuit
