import PatternCircuit.Program.Transition
import PatternCircuit.Proofs.Program.Builder

/-! # What the transition step computes

A state other than the start becomes active when one of its incoming edges fires, the start when no
other state does. -/

namespace PatternCircuit.Inflow

open Builder

/-- An edge into the state leaves an active state on the input byte. -/
def fires (a : Inflow) (f : Frame) (target : Nat) : Bool :=
  (a.predecessors target).any fun p =>
    f.state.getD p.1 false && (a.matched p.1 p.2).contains f.input

/-- An edge into some state other than the start fires. -/
def moves (a : Inflow) (f : Frame) : Bool :=
  ((List.range a.stateCount).drop 1).any (a.fires f)

theorem mem_drop_one_range {n t : Nat} : t ∈ (List.range n).drop 1 ↔ t ≠ 0 ∧ t < n := by
  rw [List.mem_drop_iff_getElem]
  constructor
  · rintro ⟨i, hi, rfl⟩
    rw [List.length_range] at hi
    rw [List.getElem_range]
    omega
  · rintro ⟨hne, hlt⟩
    exact ⟨t - 1, by rw [List.length_range]; omega, by rw [List.getElem_range]; omega⟩

section Emit

variable {count : Nat} (a : Inflow) {b : Builder} (h : b.Sound count)
include h

theorem gives_emitTest (source : Nat) (l : Label) :
    Gives count b (fun f => (a.matched source l).contains f.input) (a.emitTest source l b) := by
  unfold emitTest matched bytesTaken
  split
  · have htest := gives_byteTest h (a.exclusions.getD source .empty)
    refine (htest.trans (gives_not htest.sound htest.known)).congr fun f => ?_
    rw [htest.read, ByteSet.contains_compl]
  · exact gives_byteTest h l.bytes

/-- One edge fires when its source is active and takes the input byte. -/
theorem gives_fired (source : Nat) (l : Label) :
    Gives count b
      (fun f => f.state.getD source false && (a.matched source l).contains f.input)
      ((a.emitTest source l b).2.all [.state source, (a.emitTest source l b).1]) := by
  have htest := gives_emitTest a h source l
  have hsource : Known (a.emitTest source l b).2.ops (.state source) := trivial
  have hboth := gives_both htest.sound hsource htest.known
  refine (htest.trans hboth).congr fun f => ?_
  rw [htest.read]
  rfl

theorem givesAny_emitFired (edges : List (Nat × Label)) :
    GivesAny count b
      (fun f => edges.any fun p =>
        f.state.getD p.1 false && (a.matched p.1 p.2).contains f.input)
      (a.emitFired edges b) := by
  induction edges generalizing b with
  | nil => exact givesAny_nil h
  | cons edge edges ih =>
      have hfired := gives_fired a h edge.1 edge.2
      exact hfired.toAny.append (ih hfired.sound)

end Emit

/-! ### Stores -/

/-- What storing some states does. -/
structure StoresStates (count : Nat) (a : Inflow) (b : Builder) (targets : List Nat)
    (r : List Operand × Builder) : Prop where
  sound : r.2.Sound count
  extension : Extends count b.ops r.2.ops
  known : ∀ o ∈ r.1, Known r.2.ops o
  read : ∀ f, r.1.any (read count r.2.ops f) = targets.any (a.fires f)
  size : ∀ f, (run count r.2.ops f).stores.next.size = (run count b.ops f).stores.next.size
  next : ∀ f i, (run count r.2.ops f).stores.next.getD i false =
    if i ∈ targets ∧ i < (run count b.ops f).stores.next.size then a.fires f i
    else (run count b.ops f).stores.next.getD i false

theorem getD_setIfInBounds (xs : Array Bool) (i j : Nat) (v : Bool) :
    (xs.setIfInBounds i v).getD j false =
      if j = i ∧ j < xs.size then v else xs.getD j false := by
  simp only [Array.getD_eq_getD_getElem?, Array.getElem?_setIfInBounds]
  by_cases hij : i = j
  · subst hij
    by_cases hlt : i < xs.size <;> simp [hlt]
  · simp [hij, Ne.symm hij]

/-- Storing the value of an operand as a state. -/
theorem storesState {count : Nat} (b : Builder) (state : Nat) (o : Operand) (f : Frame) :
    (run count (b.store (.storeState state o)).ops f).stores =
      { (run count b.ops f).stores with
        next := (run count b.ops f).stores.next.setIfInBounds state (read count b.ops f o) } := by
  rw [store, run_push]
  rfl

theorem storesChanged {count : Nat} (b : Builder) (o : Operand) (f : Frame) :
    (run count (b.store (.storeChanged o)).ops f).stores =
      { (run count b.ops f).stores with changed := read count b.ops f o } := by
  rw [store, run_push]
  rfl

theorem extends_store (count : Nat) (b : Builder) (op : Op) :
    Extends count b.ops (b.store op).ops :=
  extends_push count b.ops op

theorem sound_store {count : Nat} {b : Builder} (h : b.Sound count) (op : Op) :
    (b.store op).Sound count :=
  h.extend count (extends_store count b op) rfl

theorem storesStates_emitStates {count : Nat} (a : Inflow) (targets : List Nat) {b : Builder}
    (h : b.Sound count) : StoresStates count a b targets (a.emitStates targets b) := by
  induction targets generalizing b with
  | nil =>
      exact ⟨h, .refl b.ops, by simp [emitStates], fun _ => rfl, fun _ => rfl,
        by simp [emitStates]⟩
  | cons target targets ih =>
      have hvalue := (givesAny_emitFired a h (a.predecessors target)).any
      generalize hb : (a.emitFired (a.predecessors target) b).2.any
        (a.emitFired (a.predecessors target) b).1 = r at hvalue
      have hsound := sound_store hvalue.sound (.storeState target r.1)
      have hext := extends_store count r.2 (.storeState target r.1)
      have hrest := ih hsound
      have hcons : a.emitStates (target :: targets) b =
          (r.1 :: (a.emitStates targets (r.2.store (.storeState target r.1))).1,
            (a.emitStates targets (r.2.store (.storeState target r.1))).2) := by
        rw [← hb]
        rfl
      rw [hcons]
      have hstored : ∀ f, (run count (r.2.store (.storeState target r.1)).ops f).stores.next =
          (run count b.ops f).stores.next.setIfInBounds target (a.fires f target) := by
        intro f
        rw [storesState, hvalue.stores, hvalue.read]
        rfl
      have hfirst : ∀ f,
          read count (a.emitStates targets (r.2.store (.storeState target r.1))).2.ops f r.1 =
            a.fires f target := by
        intro f
        rw [hrest.extension.read r.1 (hext.known hvalue.known), hext.read r.1 hvalue.known,
          hvalue.read]
        rfl
      refine ⟨hrest.sound, (hvalue.extension.trans hext).trans hrest.extension, ?_, ?_, ?_, ?_⟩
      · intro o ho
        rcases List.mem_cons.mp ho with rfl | ho
        · exact hrest.extension.known (hext.known hvalue.known)
        · exact hrest.known o ho
      · intro f
        rw [List.any_cons, List.any_cons, hfirst, hrest.read]
      · intro f
        rw [hrest.size, hstored, Array.size_setIfInBounds]
      · intro f i
        rw [hrest.next, hstored, Array.size_setIfInBounds, getD_setIfInBounds]
        by_cases hi : i = target
        · subst hi
          by_cases hlt : i < (run count b.ops f).stores.next.size <;> simp [hlt]
        · simp [hi]

/-- The transition step stores for each state whether it is active after the byte, and whether one
other than the start is. -/
theorem transitionCode_stores (a : Inflow) (f : Frame) :
    let stores := (runStep a.transitionCode.step f a.stateCount).stores
    stores.next.size = a.stateCount ∧ stores.changed = a.moves f ∧
      ∀ i < a.stateCount, stores.next.getD i false =
        if i = 0 then !a.moves f else a.fires f i := by
  let n := a.stateCount
  let states := a.emitStates ((List.range n).drop 1) .empty
  let moved := states.2.any states.1
  let flagged := moved.2.store (.storeChanged moved.1)
  let idle := flagged.not moved.1
  have hstates : StoresStates n a .empty ((List.range n).drop 1) states :=
    storesStates_emitStates a _ (sound_empty n)
  have hmoved := gives_any hstates.sound states.1 hstates.known
  have hflagged := extends_store n moved.2 (.storeChanged moved.1)
  have hidle := gives_not (sound_store hmoved.sound (.storeChanged moved.1))
    (hflagged.known hmoved.known)
  have hmoves : read n moved.2.ops f moved.1 = a.moves f := by
    rw [hmoved.read, hstates.read]
    rfl
  have hvalue : read n idle.2.ops f idle.1 = !a.moves f := by
    rw [hidle.read, hflagged.read _ hmoved.known, hmoves]
  have hstart : (run n Builder.empty.ops f).stores.next.size = n := by
    simp [Builder.empty, run, runStep, StepRun.start]
  have hstores : (runStep a.transitionCode.step f n).stores =
      { (run n idle.2.ops f).stores with
        next := (run n idle.2.ops f).stores.next.setIfInBounds 0 (!a.moves f) } := by
    rw [← hvalue]
    exact storesState idle.2 0 idle.1 f
  have hnext : (run n idle.2.ops f).stores =
      { (run n states.2.ops f).stores with changed := a.moves f } := by
    rw [hidle.stores, ← hmoves, ← hmoved.stores]
    exact storesChanged moved.2 moved.1 f
  intro stores
  have hsize : (run n states.2.ops f).stores.next.size = n := (hstates.size f).trans hstart
  refine ⟨?_, ?_, ?_⟩
  · simp only [stores]
    rw [hstores, hnext, Array.size_setIfInBounds, hsize]
  · simp only [stores]
    rw [hstores, hnext]
  · intro i hi
    simp only [stores]
    rw [hstores, hnext, getD_setIfInBounds, hsize, hstates.next, hstart]
    by_cases hzero : i = 0
    · rw [if_pos ⟨hzero, hi⟩, if_pos hzero]
    · rw [if_neg fun hand => hzero hand.1, if_pos ⟨mem_drop_one_range.mpr ⟨hzero, hi⟩, hi⟩,
        if_neg hzero]

end PatternCircuit.Inflow
