import PatternCircuit.Proofs.Circuit.Correctness
import PatternCircuit.Proofs.Program.Builder

/-! # Valid programs run within bounds

A step reads arrays of states and of earlier results and stores into an array of next states. The
checked run below does the same work as a run and gives nothing at the first access out of bounds.
On a valid program every access is within bounds, and the program can be laid out as well. -/

namespace PatternCircuit

/-! ### Checked runs -/

/-- The value of an operand, if it is within bounds. -/
def Frame.read? (f : Frame) (nodes : Array Bool) : Operand → Option Bool
  | .state i => f.state[i]?
  | .nextState i => f.next[i]?
  | .changed => some f.changed
  | .carry => some f.carry
  | .node id => nodes[id]?
  | .const value => some value

namespace StepRun

/-- Adds the stores of an operation without a result. -/
def stored (r : StepRun) (stores : Stores) : StepRun := ⟨r.nodes.push false, stores⟩

/-- Runs one operation, if all that it reads and stores is within bounds. -/
def exec? (f : Frame) (r : StepRun) : Op → Option StepRun
  | .equals code => some (r.result (f.input == code))
  | .atLeast bound => some (r.result (bound ≤ f.input))
  | .atMost bound => some (r.result (f.input ≤ bound))
  | .conj operands => do
      let values ← operands.mapM (f.read? r.nodes)
      pure (r.result (values.all id))
  | .disj operands => do
      let values ← operands.mapM (f.read? r.nodes)
      pure (r.result (values.any id))
  | .neg operand => do
      let value ← f.read? r.nodes operand
      pure (r.result !value)
  | .storeState state value => do
      let value ← f.read? r.nodes value
      if state < r.stores.next.size then
        pure (r.stored { r.stores with next := r.stores.next.setIfInBounds state value })
      else none
  | .storeChanged value => do
      let value ← f.read? r.nodes value
      pure (r.stored { r.stores with changed := value })
  | .storeCarry value => do
      let value ← f.read? r.nodes value
      pure (r.stored { r.stores with carry := value })
  | .disclose mask => do
      let value ← f.read? r.nodes mask
      pure (r.stored { r.stores with disclosed := if value then f.input else r.stores.disclosed })

end StepRun

def runStep? (step : List Op) (f : Frame) (count : Nat) : Option StepRun :=
  step.foldlM (StepRun.exec? f) (StepRun.start count)

namespace Program

def advance? (p : Program) (rows : List TraceRow) (byte : UInt8) : Option (List TraceRow) := do
  let state := p.currentState rows
  let done ← runStep? p.step ⟨byte, state, #[], false, false⟩ p.stateCount
  pure (⟨byte, state, done.stores.next, done.stores.changed⟩ :: rows)

def revealByte? (count : Nat) (step : List Op) (done : Bool × List UInt8) (row : TraceRow) :
    Option (Bool × List UInt8) := do
  let run ← runStep? step ⟨row.input, row.state, row.next, row.changed, done.1⟩ count
  pure (run.stores.carry, run.stores.disclosed :: done.2)

def revealVector? (count : Nat) (rows : List TraceRow) (r : Reveal) : Option RevealVector := do
  let done ← rows.foldlM (revealByte? count r.step) (true, [])
  pure ⟨r.name, done.2⟩

def verdict? (p : Program) (states : List (Array Bool)) : Option Verdict := do
  let accepting ← states.mapM fun state => state[p.acceptState]?
  match p.acceptance with
  | .count => pure (.counted (accepting.countP id))
  | .any => pure (.matched (accepting.any id))
  | .all => pure (.matched ((accepting.drop 1).all id))

/-- A run in which every access is checked; the idle state that it starts in has to exist. -/
def run? (p : Program) (input : List UInt8) : Option Evaluation :=
  if 0 < p.stateCount then do
    let rows ← input.foldlM p.advance? []
    let states := p.initialState :: (rows.map TraceRow.next).reverse
    let verdict ← p.verdict? states
    let reveals ← p.reveals.mapM (revealVector? p.stateCount rows)
    pure ⟨states, (rows.map TraceRow.changed).reverse, verdict, reveals⟩
  else none

end Program

/-! ### Results that are all there -/

theorem getElem?_eq_some_getD {values : Array Bool} {i : Nat} (h : i < values.size) :
    values[i]? = some (values.getD i false) := by
  rw [Array.getD_eq_getD_getElem?, Array.getElem?_eq_getElem h, Option.getD_some]

theorem mapM_of_forall {α β : Type} {f : α → Option β} {g : α → β} {as : List α}
    (h : ∀ a ∈ as, f a = some (g a)) : as.mapM f = some (as.map g) := by
  induction as with
  | nil => rfl
  | cons a as ih =>
      rw [List.mapM_cons, h a (by simp), ih fun b hb => h b (by simp [hb])]
      rfl

/-- A fold of partial steps that keep an invariant under which they are defined. -/
theorem foldlM_eq_some_foldl {α β : Type} {f : β → α → Option β} {g : β → α → β} {P : β → Prop}
    {as : List α} (hstep : ∀ b, P b → ∀ a ∈ as, f b a = some (g b a) ∧ P (g b a)) {b : β}
    (hb : P b) : as.foldlM f b = some (as.foldl g b) ∧ P (as.foldl g b) := by
  induction as generalizing b with
  | nil => exact ⟨rfl, hb⟩
  | cons a as ih =>
      obtain ⟨hf, hnext⟩ := hstep b hb a (by simp)
      rw [List.foldlM_cons, hf, List.foldl_cons]
      exact ih (fun b hb a ha => hstep b hb a (by simp [ha])) hnext

/-! ### Steps -/

/-- Operation `id` of a step stays within bounds when it reads the operand. -/
def Frame.InBounds (f : Frame) (id : Nat) : Operand → Prop
  | .state i => i < f.state.size
  | .nextState i => i < f.next.size
  | .node target => target < id
  | .changed | .carry | .const _ => True

/-- Every operation of a step reads and stores within bounds. -/
def Frame.Supports (f : Frame) (count : Nat) (step : List Op) : Prop :=
  ∀ (id : Nat) (op : Op), step[id]? = some op →
    (∀ s, op.storedState? = some s → s < count) ∧ ∀ o ∈ op.operands, f.InBounds id o

/-- The arrays that a step may read have an entry for every state. -/
structure Frame.Covers (count : Nat) (kind : StepKind) (f : Frame) : Prop where
  state : f.state.size = count
  next : kind = .reveal → f.next.size = count

/-- A well-formed step stays within arrays that have an entry for every state. -/
theorem Frame.Covers.supports {count : Nat} {kind : StepKind} {f : Frame} {step : List Op}
    (hf : f.Covers count kind) (hstep : WellFormedStep count kind step) :
    f.Supports count step := by
  intro id op hget
  obtain ⟨hstored, hreads⟩ := hstep id op hget
  refine ⟨hstored, fun o ho => ?_⟩
  have hreadable := hreads o ho
  cases o with
  | state i =>
      have hi : i < f.state.size := hf.state ▸ of_decide_eq_true hreadable
      exact hi
  | nextState i =>
      obtain ⟨hkind, hlt⟩ := Bool.and_eq_true_iff.mp hreadable
      have hi : i < f.next.size := hf.next (eq_of_beq hkind) ▸ of_decide_eq_true hlt
      exact hi
  | node target =>
      have htarget : target < id := of_decide_eq_true (Bool.and_eq_true_iff.mp hreadable).1
      exact htarget
  | changed => trivial
  | carry => trivial
  | const value => trivial

namespace StepRun

variable {count : Nat} {f : Frame} {r : StepRun} {done rest : List Op}

/-- The run of some operations has a result for each and a next state for every state. -/
structure Covers (count : Nat) (done : List Op) (r : StepRun) : Prop where
  nodes : r.nodes.size = done.length
  next : r.stores.next.size = count

theorem covers_start (count : Nat) : (start count).Covers count [] :=
  ⟨rfl, by simp [start]⟩

theorem size_next_exec (f : Frame) (r : StepRun) (op : Op) :
    (exec f r op).stores.next.size = r.stores.next.size := by
  cases op with
  | storeState state value => exact Array.size_setIfInBounds
  | _ => rfl

theorem Covers.exec (h : r.Covers count done) (f : Frame) (op : Op) :
    (exec f r op).Covers count (done ++ [op]) where
  nodes := by rw [nodes_exec, Array.size_push, h.nodes, List.length_append, List.length_singleton]
  next := (size_next_exec f r op).trans h.next

section Step

variable (hr : r.Covers count done)
include hr

theorem read?_eq {o : Operand} (ho : f.InBounds done.length o) :
    f.read? r.nodes o = some (f.read r.nodes o) := by
  cases o with
  | state i => exact getElem?_eq_some_getD ho
  | nextState i => exact getElem?_eq_some_getD ho
  | node target =>
      have htarget : target < done.length := ho
      exact getElem?_eq_some_getD (hr.nodes ▸ htarget)
  | changed => rfl
  | carry => rfl
  | const value => rfl

/-- An operation that reads and stores within bounds is run. -/
theorem exec?_eq {op : Op} (hstored : ∀ i, op.storedState? = some i → i < count)
    (hop : ∀ o ∈ op.operands, f.InBounds done.length o) :
    exec? f r op = some (exec f r op) := by
  have hread : ∀ o ∈ op.operands, f.read? r.nodes o = some (f.read r.nodes o) :=
    fun o ho => read?_eq hr (hop o ho)
  cases op with
  | equals code => rfl
  | atLeast bound => rfl
  | atMost bound => rfl
  | conj operands =>
      have hvalues : operands.mapM (f.read? r.nodes) = some (operands.map (f.read r.nodes)) :=
        mapM_of_forall hread
      simp [exec?, hvalues, StepRun.exec]
  | disj operands =>
      have hvalues : operands.mapM (f.read? r.nodes) = some (operands.map (f.read r.nodes)) :=
        mapM_of_forall hread
      simp [exec?, hvalues, StepRun.exec]
  | neg operand =>
      rw [exec?, hread operand (by simp [Op.operands])]
      rfl
  | storeState state value =>
      have hstate : state < r.stores.next.size := hr.next ▸ hstored state rfl
      rw [exec?, hread value (by simp [Op.operands])]
      simp [hstate, StepRun.exec, StepRun.stored]
  | storeChanged value =>
      rw [exec?, hread value (by simp [Op.operands])]
      rfl
  | storeCarry value =>
      rw [exec?, hread value (by simp [Op.operands])]
      rfl
  | disclose mask =>
      rw [exec?, hread mask (by simp [Op.operands])]
      rfl

end Step

/-- The rest of a step runs within bounds behind the operations that are done. -/
theorem foldlM_exec? (hr : r.Covers count done) (hstep : f.Supports count (done ++ rest)) :
    rest.foldlM (exec? f) r = some (rest.foldl (exec f) r) := by
  induction rest generalizing done r with
  | nil => rfl
  | cons op rest ih =>
      obtain ⟨hstored, hop⟩ := hstep done.length op (by simp)
      rw [List.foldlM_cons, exec?_eq hr hstored hop, List.foldl_cons]
      exact ih (hr.exec f op) (by rwa [List.append_assoc])

end StepRun

/-- A step whose operations stay within bounds is run. -/
theorem Frame.Supports.runStep?_eq {count : Nat} {step : List Op} {f : Frame}
    (h : f.Supports count step) : runStep? step f count = some (runStep step f count) :=
  StepRun.foldlM_exec? (StepRun.covers_start count) h

theorem size_next_runStep (step : List Op) (f : Frame) (count : Nat) :
    (runStep step f count).stores.next.size = count := by
  have hfold : ∀ r : StepRun, (step.foldl (StepRun.exec f) r).stores.next.size =
      r.stores.next.size := by
    induction step with
    | nil => exact fun r => rfl
    | cons op step ih =>
        intro r
        rw [List.foldl_cons, ih, StepRun.size_next_exec]
  rw [runStep, hfold, StepRun.start, Array.size_replicate]

/-! ### Runs -/

namespace Program

variable {p : Program}

/-- The states around a byte have an entry for every state of the program. -/
def Full (count : Nat) (row : TraceRow) : Prop := row.state.size = count ∧ row.next.size = count

theorem size_initialState (p : Program) : p.initialState.size = p.stateCount := by
  simp [initialState]

theorem size_currentState {rows : List TraceRow} (h : ∀ row ∈ rows, Full p.stateCount row) :
    (p.currentState rows).size = p.stateCount := by
  cases rows with
  | nil => exact p.size_initialState
  | cons row rows => exact (h row (by simp)).2

theorem full_advance {rows : List TraceRow} (h : ∀ row ∈ rows, Full p.stateCount row)
    (byte : UInt8) : ∀ row ∈ p.advance rows byte, Full p.stateCount row := by
  intro row hrow
  rcases List.mem_cons.mp hrow with rfl | hrow
  · exact ⟨size_currentState h, size_next_runStep _ _ _⟩
  · exact h row hrow

theorem Valid.advance?_eq (hp : p.Valid) {rows : List TraceRow}
    (h : ∀ row ∈ rows, Full p.stateCount row) (byte : UInt8) :
    p.advance? rows byte = some (p.advance rows byte) := by
  have hframe : Frame.Covers p.stateCount .transition
      ⟨byte, p.currentState rows, #[], false, false⟩ := ⟨size_currentState h, nofun⟩
  rw [advance?, (hframe.supports hp.wellFormed).runStep?_eq]
  rfl

/-- The forward pass over an input stays within bounds. -/
theorem Valid.trace?_eq (hp : p.Valid) (x : List UInt8) :
    x.foldlM p.advance? [] = some (p.trace x) ∧ ∀ row ∈ p.trace x, Full p.stateCount row :=
  foldlM_eq_some_foldl (P := fun rows => ∀ row ∈ rows, Full p.stateCount row)
    (fun _ hrows byte _ => ⟨hp.advance?_eq hrows byte, full_advance hrows byte⟩)
    (List.forall_mem_nil _)

/-- The backward pass of a reveal stays within bounds. -/
theorem revealVector?_eq {count : Nat} {r : Reveal} (hr : r.Valid count) {rows : List TraceRow}
    (h : ∀ row ∈ rows, Full count row) :
    revealVector? count rows r = some ⟨r.name, revealBytes count r.step rows⟩ := by
  have hbyte : ∀ done : Bool × List UInt8, True → ∀ row ∈ rows,
      revealByte? count r.step done row = some (revealByte count r.step done row) ∧ True := by
    intro done _ row hrow
    obtain ⟨hstate, hnext⟩ := h row hrow
    have hframe : Frame.Covers count .reveal
        ⟨row.input, row.state, row.next, row.changed, done.1⟩ := ⟨hstate, fun _ => hnext⟩
    rw [revealByte?, (hframe.supports hr.wellFormed).runStep?_eq]
    exact ⟨rfl, trivial⟩
  rw [revealVector?, (foldlM_eq_some_foldl hbyte trivial).1]
  rfl

theorem Valid.verdict?_eq (hp : p.Valid) {states : List (Array Bool)}
    (h : ∀ state ∈ states, state.size = p.stateCount) :
    p.verdict? states = some (p.verdict states) := by
  have haccept : ∀ state ∈ states, state[p.acceptState]? = some (p.accepting state) := by
    intro state hstate
    exact getElem?_eq_some_getD (h state hstate ▸ hp.accept_lt)
  rw [verdict?, mapM_of_forall haccept, verdict]
  cases p.acceptance with
  | count => simp
  | any => simp
  | all =>
      simp only [Option.bind_eq_bind, Option.bind_some, Option.pure_def]
      rw [← List.map_drop, List.all_map]
      rfl

theorem size_of_mem_states {x : List UInt8} (hrows : ∀ row ∈ p.trace x, Full p.stateCount row) :
    ∀ state ∈ (p.run x).states, state.size = p.stateCount := by
  intro state hstate
  rcases List.mem_cons.mp hstate with rfl | hstate
  · exact p.size_initialState
  · rw [List.mem_reverse] at hstate
    obtain ⟨row, hrow, rfl⟩ := List.mem_map.mp hstate
    exact (hrows row hrow).2

/-- A run of a valid program stays within bounds. -/
theorem Valid.run?_eq (hp : p.Valid) (x : List UInt8) : p.run? x = some (p.run x) := by
  obtain ⟨htrace, hrows⟩ := hp.trace?_eq x
  have hverdict := hp.verdict?_eq (size_of_mem_states hrows)
  have hreveals := mapM_of_forall fun r hr => revealVector?_eq (hp.reveals r hr) hrows
  have hpos : 0 < p.stateCount := Nat.lt_of_lt_of_le Nat.two_pos hp.two_le
  simp only [run?, if_pos hpos, htrace, Option.bind_eq_bind, Option.bind_some]
  rw [show p.initialState :: ((p.trace x).map TraceRow.next).reverse = (p.run x).states from rfl,
    hverdict, Option.bind_some, hreveals]
  rfl

end Program

/-! ### Both ways to execute -/

/-- A valid program runs on every input with all its accesses within bounds, and the run has the
states at every position, a change per byte and a vector per reveal. The circuit over the input can
be laid out and filled. -/
theorem valid_program_executes {p : Program} (hvalid : p.validate = .ok ()) (x : List UInt8) :
    ∃ e, p.evaluate x = .ok e ∧ p.run? x = some e ∧
      e.states.length = x.length + 1 ∧ (∀ state ∈ e.states, state.size = p.stateCount) ∧
      e.changed.length = x.length ∧
      e.reveals.map RevealVector.name = p.reveals.map Reveal.name ∧
      (∀ v ∈ e.reveals, v.bytes.length = x.length) ∧
      ∃ c l, (Circuit.ofProgram p x.length).withInput x = .ok c ∧ c.layout? = some l ∧
        (l.witness c.byteAt).isKnown = true ∧
        ∀ logRows publicValues, c.check logRows publicValues ≠ .error .synthesis := by
  have hp := Program.valid_of_validate hvalid
  refine ⟨p.run x, Program.evaluate_of_validate hvalid x, hp.run?_eq x, ?_,
    Program.size_of_mem_states (hp.trace?_eq x).2, p.length_changed_run x, ?_, ?_, ?_⟩
  · rw [p.states_run, List.length_map, List.length_range]
  · simp [Program.run, Function.comp_def]
  · intro v hv
    obtain ⟨r, _, rfl⟩ := List.mem_map.mp hv
    exact (Program.length_revealBytes _ _ _).trans (p.length_trace x)
  · have hinput : (Circuit.ofProgram p x.length).withInput x = .ok ⟨p, x.length, some x⟩ := by
      rw [Circuit.withInput, if_neg (by simp [Circuit.ofProgram])]
      rfl
    obtain ⟨l, hl, hknown, _⟩ := Circuit.exists_witness (c := ⟨p, x.length, some x⟩) hvalid rfl rfl
    exact ⟨_, l, hinput, hl, hknown, fun logRows publicValues =>
      (Circuit.mockRun_check _ logRows publicValues).ne_synthesis hl hknown⟩

/-- Every other `a` of the input starts a match; a reveal reads all kinds of operands. -/
def alternatingProgram : Program where
  stateCount := 2
  acceptState := 1
  acceptance := .count
  step := [.equals 97, .conj [.state 0, .node 0], .storeState 1 (.node 1), .neg (.node 1),
    .storeState 0 (.node 3), .storeChanged (.node 1)]
  reveals := [⟨"start", [(0, 1)], [.conj [.state 0, .nextState 1, .changed],
    .disj [.carry, .node 0, .const false], .storeCarry (.node 1), .disclose (.node 0)]⟩]

theorem alternatingProgram_executes :
    alternatingProgram.validate = .ok () ∧
      ∃ e c l, alternatingProgram.run? [97, 97, 97, 98] = some e ∧
        e.verdict = .counted 2 ∧ e.reveals = [⟨"start", [97, 0, 97, 0]⟩] ∧
        e.states.length = 5 ∧ (∀ state ∈ e.states, state.size = 2) ∧
        (Circuit.ofProgram alternatingProgram 4).withInput [97, 97, 97, 98] = .ok c ∧
        c.layout? = some l ∧ (l.witness c.byteAt).isKnown = true := by
  have hvalid : alternatingProgram.validate = .ok () := by decide
  obtain ⟨e, he, hrun, hlength, hsize, -, -, -, c, l, hc, hl, hknown, -⟩ :=
    valid_program_executes hvalid [97, 97, 97, 98]
  obtain rfl : e = alternatingProgram.run [97, 97, 97, 98] :=
    Except.ok.inj (he.symm.trans (Program.evaluate_of_validate hvalid _))
  exact ⟨hvalid, _, c, l, hrun, by decide, by decide, hlength, hsize, hc, hl, hknown⟩

end PatternCircuit
