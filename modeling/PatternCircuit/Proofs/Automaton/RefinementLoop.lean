import Mathlib.Logic.Relation
import PatternCircuit.Proofs.Automaton.Coarsest

/-! # The refinement loop, step by step

The loop is followed through every moment at which it holds a partition: before a splitter leaves
the queue, before the splitter acts by a table, and before a block is split. At each of them the
arrays agree with each other. A split adds one block and at most one splitter, so no more splitters
leave the queue than there are states, whether or not the states have several edges with one
label. -/

namespace PatternCircuit

namespace Refinement

/-- The states with an edge into the splitter. -/
def sources (splitter : List Nat) (table : Array (List Nat)) : List Nat :=
  splitter.flatMap fun s => table.getD s []

/-- Where the loop stands. -/
inductive Stage where
  /-- The next splitter is about to leave the queue. -/
  | turn
  /-- A splitter still has to act by some tables. -/
  | acting (splitter : List Nat) (tables : List (Array (List Nat)))
  /-- The touched states are marked, and some blocks still have to be split. -/
  | splitting (splitter : List Nat) (tables : List (Array (List Nat))) (touched blocks : List Nat)

namespace Stage

/-- The states that are marked: none unless blocks are being split. -/
def touched : Stage → List Nat
  | turn => []
  | acting _ _ => []
  | splitting _ _ touched _ => touched

/-- The blocks that still have to be split. -/
def blocks : Stage → List Nat
  | turn => []
  | acting _ _ => []
  | splitting _ _ _ blocks => blocks

/-- The tables by which the splitter still has to act. -/
def tables : Stage → List (Array (List Nat))
  | turn => []
  | acting _ tables => tables
  | splitting _ tables _ _ => tables

end Stage

/-- A moment of the loop, with the splitters taken off the queue and the blocks split so far. -/
structure Loop where
  stage : Stage
  refinement : Refinement
  pops : Nat
  splits : Nat

namespace Loop

/-- One step of the loop. -/
inductive Step (tables : List (Array (List Nat))) : Loop → Loop → Prop where
  | pop {r : Refinement} {b : Nat} {rest : List Nat} {pops splits : Nat} : r.queue = b :: rest →
      Step tables ⟨.turn, r, pops, splits⟩
        ⟨.acting (r.block b) tables,
          { r with queue := rest, queued := r.queued.setIfInBounds b false }, pops + 1, splits⟩
  | turn {splitter : List Nat} {r : Refinement} {pops splits : Nat} :
      Step tables ⟨.acting splitter [], r, pops, splits⟩ ⟨.turn, r, pops, splits⟩
  | skip {splitter : List Nat} {table : Array (List Nat)} {rest : List (Array (List Nat))}
      {r : Refinement} {pops splits : Nat} : sources splitter table = [] →
      Step tables ⟨.acting splitter (table :: rest), r, pops, splits⟩
        ⟨.acting splitter rest, r, pops, splits⟩
  | mark {splitter : List Nat} {table : Array (List Nat)} {rest : List (Array (List Nat))}
      {r : Refinement} {pops splits : Nat} : sources splitter table ≠ [] →
      Step tables ⟨.acting splitter (table :: rest), r, pops, splits⟩
        ⟨.splitting splitter rest (sources splitter table)
            ((r.setMarks (sources splitter table) true).blocksOf (sources splitter table)),
          r.setMarks (sources splitter table) true, pops, splits⟩
  | keep {splitter : List Nat} {rest : List (Array (List Nat))} {touched blocks : List Nat}
      {b : Nat} {r : Refinement} {pops splits : Nat} : (∀ s ∈ r.block b, r.isMarked s = true) →
      Step tables ⟨.splitting splitter rest touched (b :: blocks), r, pops, splits⟩
        ⟨.splitting splitter rest touched blocks, r, pops, splits⟩
  | split {splitter : List Nat} {rest : List (Array (List Nat))} {touched blocks : List Nat}
      {b : Nat} {r : Refinement} {pops splits : Nat} : ¬(∀ s ∈ r.block b, r.isMarked s = true) →
      Step tables ⟨.splitting splitter rest touched (b :: blocks), r, pops, splits⟩
        ⟨.splitting splitter rest touched blocks, r.split b, pops, splits + 1⟩
  | unmark {splitter : List Nat} {rest : List (Array (List Nat))} {touched : List Nat}
      {r : Refinement} {pops splits : Nat} :
      Step tables ⟨.splitting splitter rest touched [], r, pops, splits⟩
        ⟨.acting splitter rest, r.setMarks touched false, pops, splits⟩

/-- What follows from a moment by steps of the loop. -/
def Reaches (tables : List (Array (List Nat))) : Loop → Loop → Prop :=
  Relation.ReflTransGen (Step tables)

theorem Step.deterministic {tables : List (Array (List Nat))} {l m m' : Loop}
    (h : Step tables l m) (h' : Step tables l m') : m = m' := by
  cases h with
  | pop hqueue =>
      cases h' with
      | pop hqueue' =>
          rw [hqueue] at hqueue'
          cases hqueue'
          rfl
  | turn =>
      cases h' with
      | turn => rfl
  | skip hnone =>
      cases h' with
      | skip _ => rfl
      | mark hsome => exact absurd hnone hsome
  | mark hsome =>
      cases h' with
      | skip hnone => exact absurd hnone hsome
      | mark _ => rfl
  | keep hall =>
      cases h' with
      | keep _ => rfl
      | split hnot => exact absurd hall hnot
  | split hnot =>
      cases h' with
      | keep hall => exact absurd hall hnot
      | split _ => rfl
  | unmark =>
      cases h' with
      | unmark => rfl

/-- Every moment comes before one at which the loop stops. -/
theorem Reaches.of_stopped {tables : List (Array (List Nat))} {first l last : Loop}
    (h : Reaches tables first l) (hlast : Reaches tables first last)
    (hstop : ∀ next, ¬Step tables last next) : Reaches tables l last := by
  have hunique : Relator.RightUnique (Step tables) := fun _ _ _ => Step.deterministic
  cases Relation.ReflTransGen.total_of_right_unique hunique h hlast with
  | inl hahead => exact hahead
  | inr hbehind =>
      cases hbehind.cases_head with
      | inl heq => exact heq ▸ .refl
      | inr hstep =>
          obtain ⟨next, hnext, _⟩ := hstep
          exact absurd hnext (hstop next)

/-! ### The loop computes the run -/

theorem split_of_marked {r : Refinement} {b : Nat} (h : ∀ s ∈ r.block b, r.isMarked s = true) :
    r.split b = r := by
  have hnone : (r.block b).filter (fun s => !r.isMarked s) = [] := by
    simpa using h
  simp [Refinement.split, hnone]

theorem size_split {r : Refinement} {b : Nat} (h : ¬∀ s ∈ r.block b, r.isMarked s = true) :
    (r.split b).blocks.size = r.blocks.size + 1 := by
  have hsome : (r.block b).filter (fun s => !r.isMarked s) ≠ [] := by
    simpa using h
  have hdivided : ∀ inside outside,
      (r.divide b inside outside).blocks.size = r.blocks.size + 1 := by
    simp [divide]
  unfold Refinement.split
  simp only [List.isEmpty_iff, hsome, if_false]
  generalize (if (_ : Nat) ≤ _ then b else r.blocks.size) = smaller
  split
  · exact hdivided _ _
  · split
    · exact hdivided _ _
    · exact hdivided _ _

section Run

variable (all : List (Array (List Nat)))

theorem reaches_splits (splitter : List Nat) (tables : List (Array (List Nat)))
    (touched bs : List Nat) (r : Refinement) (pops splits : Nat) :
    ∃ splits', Reaches all ⟨.splitting splitter tables touched bs, r, pops, splits⟩
      ⟨.splitting splitter tables touched [], bs.foldl Refinement.split r, pops, splits'⟩ := by
  induction bs generalizing r splits with
  | nil => exact ⟨splits, .refl⟩
  | cons b bs ih =>
      by_cases hall : ∀ s ∈ r.block b, r.isMarked s = true
      · obtain ⟨splits', hrest⟩ := ih r splits
        rw [List.foldl_cons, split_of_marked hall]
        exact ⟨splits', .head (.keep hall) hrest⟩
      · obtain ⟨splits', hrest⟩ := ih (r.split b) (splits + 1)
        exact ⟨splits', .head (.split hall) hrest⟩

theorem reaches_splitBy (splitter : List Nat) (table : Array (List Nat))
    (tables : List (Array (List Nat))) (r : Refinement) (pops splits : Nat) :
    ∃ splits', Reaches all ⟨.acting splitter (table :: tables), r, pops, splits⟩
      ⟨.acting splitter tables, splitBy splitter r table, pops, splits'⟩ := by
  by_cases hnone : sources splitter table = []
  · have hsame : splitBy splitter r table = r := if_pos (List.isEmpty_iff.mpr hnone)
    rw [hsame]
    exact ⟨splits, .single (.skip hnone)⟩
  · have hpass : splitBy splitter r table =
        (((r.setMarks (sources splitter table) true).blocksOf (sources splitter table)).foldl
          Refinement.split (r.setMarks (sources splitter table) true)).setMarks
            (sources splitter table) false :=
      if_neg fun hempty => hnone (List.isEmpty_iff.mp hempty)
    obtain ⟨splits', hsplits⟩ := reaches_splits all splitter tables (sources splitter table)
      ((r.setMarks (sources splitter table) true).blocksOf (sources splitter table))
      (r.setMarks (sources splitter table) true) pops splits
    rw [hpass]
    exact ⟨splits', .head (.mark hnone) (hsplits.tail .unmark)⟩

theorem reaches_splitByAll (splitter : List Nat) (tables : List (Array (List Nat)))
    (r : Refinement) (pops splits : Nat) :
    ∃ splits', Reaches all ⟨.acting splitter tables, r, pops, splits⟩
      ⟨.turn, tables.foldl (splitBy splitter) r, pops, splits'⟩ := by
  induction tables generalizing r splits with
  | nil => exact ⟨splits, .single .turn⟩
  | cons table tables ih =>
      obtain ⟨_, hpass⟩ := reaches_splitBy all splitter table tables r pops splits
      obtain ⟨splits', hrest⟩ := ih (splitBy splitter r table) _
      exact ⟨splits', hpass.trans hrest⟩

/-- A run of some rounds takes that many splitters off the queue, unless it empties the queue. -/
theorem reaches_run (rounds : Nat) (r : Refinement) (pops splits : Nat) :
    ∃ pops' splits', Reaches all ⟨.turn, r, pops, splits⟩
        ⟨.turn, run all rounds r, pops', splits'⟩ ∧
      ((run all rounds r).queue = [] ∨ pops' = pops + rounds) := by
  induction rounds generalizing r pops splits with
  | zero => exact ⟨pops, splits, .refl, .inr rfl⟩
  | succ rounds ih =>
      rw [run]
      cases hqueue : r.queue with
      | nil => exact ⟨pops, splits, .refl, .inl hqueue⟩
      | cons b rest =>
          obtain ⟨splits', hacts⟩ := reaches_splitByAll all (r.block b) all
            { r with queue := rest, queued := r.queued.setIfInBounds b false } (pops + 1) splits
          obtain ⟨pops', splits'', hrest, hend⟩ := ih _ (pops + 1) splits'
          refine ⟨pops', splits'', .head (.pop hqueue) (hacts.trans hrest), hend.imp_right ?_⟩
          intro hpops
          omega

end Run

/-! ### What holds throughout the loop -/

/-- The arrays agree with each other and the counters with the arrays. -/
structure Sound (states : List Nat) (tables : List (Array (List Nat))) (initial : Nat) (l : Loop) :
    Prop where
  partition : Partition states l.refinement
  bounded : ∀ s ∈ states, s < l.refinement.marked.size
  marks : ∀ s, l.refinement.isMarked s = true ↔ s ∈ l.stage.touched
  touched_mem : ∀ s ∈ l.stage.touched, s ∈ states
  /-- A block that is to be split holds a marked state, which stays in it. -/
  holds : ∀ b ∈ l.stage.blocks, ∃ s ∈ states,
    l.refinement.owner s = b ∧ l.refinement.isMarked s = true
  tables_mem : ∀ table ∈ l.stage.tables, table ∈ tables
  size_eq : l.refinement.blocks.size = initial + l.splits
  budget : l.pops + l.refinement.queue.length ≤ l.refinement.blocks.size

section Sound

variable {states : List Nat} {all : List (Array (List Nat))} {initial : Nat}

theorem Sound.unmarked {l : Loop} (h : Sound states all initial l)
    (hnone : l.stage.touched = []) : Unmarked states l.refinement where
  bounded := h.bounded
  clear s := by
    rw [← Bool.not_eq_true, h.marks, hnone]
    exact List.not_mem_nil

theorem Sound.mark {splitter : List Nat} {table : Array (List Nat)}
    {rest : List (Array (List Nat))} {r : Refinement} {pops splits : Nat}
    (hall : ∀ table ∈ all, ∀ p t, p ∈ table.getD t [] → p ∈ states)
    (h : Sound states all initial ⟨.acting splitter (table :: rest), r, pops, splits⟩) :
    Sound states all initial ⟨.splitting splitter rest (sources splitter table)
        ((r.setMarks (sources splitter table) true).blocksOf (sources splitter table)),
      r.setMarks (sources splitter table) true, pops, splits⟩ := by
  have hin : ∀ s ∈ sources splitter table, s ∈ states := by
    intro s hs
    obtain ⟨t, _, ht⟩ := List.mem_flatMap.mp hs
    exact hall table (h.tables_mem table (by simp [Stage.tables])) s t ht
  have hmarks := (h.unmarked rfl).isMarked_setMarks_iff hin
  refine ⟨h.partition.setMarks _ true, ?_, hmarks, hin, ?_, ?_, h.size_eq, h.budget⟩
  · intro s hs
    rw [size_setMarks]
    exact h.bounded s hs
  · intro b hb
    obtain ⟨s, hs, howner⟩ := mem_blocksOf.mp hb
    exact ⟨s, hin s hs, howner, (hmarks s).mpr hs⟩
  · intro t ht
    exact h.tables_mem t (List.mem_cons_of_mem table ht)

theorem Sound.split {splitter : List Nat} {rest : List (Array (List Nat))}
    {touched blocks : List Nat} {b : Nat} {r : Refinement} {pops splits : Nat}
    (h : Sound states all initial ⟨.splitting splitter rest touched (b :: blocks), r, pops, splits⟩)
    (hnot : ¬∀ s ∈ r.block b, r.isMarked s = true) :
    Sound states all initial
      ⟨.splitting splitter rest touched blocks, r.split b, pops, splits + 1⟩ := by
  have hsplit : SplitOf states r b (r.split b) :=
    splitOf_split h.partition (h.holds b List.mem_cons_self)
  have hsize := size_split hnot
  have hmarks := hsplit.isMarked_eq
  refine ⟨hsplit.partition, ?_, ?_, h.touched_mem, ?_, h.tables_mem, ?_, ?_⟩
  · intro s hs
    rw [hsplit.marked]
    exact h.bounded s hs
  · intro s
    rw [hmarks]
    exact h.marks s
  · intro c hc
    obtain ⟨s, hs, howner, hmarked⟩ := h.holds c (List.mem_cons_of_mem b hc)
    refine ⟨s, hs, ?_, (hmarks s).trans hmarked⟩
    rw [hsplit.owner s hs, if_neg fun hmove => by simp [hmarked] at hmove]
    exact howner
  · have hold := h.size_eq
    simp only at hold ⊢
    omega
  · have hold := h.budget
    have hspent := hsplit.budget
    simp only at hold ⊢
    omega

theorem Sound.unmark {splitter : List Nat} {rest : List (Array (List Nat))} {touched : List Nat}
    {r : Refinement} {pops splits : Nat}
    (h : Sound states all initial ⟨.splitting splitter rest touched [], r, pops, splits⟩) :
    Sound states all initial
      ⟨.acting splitter rest, r.setMarks touched false, pops, splits⟩ := by
  refine ⟨h.partition.setMarks touched false, ?_, ?_, ?_, ?_, h.tables_mem, h.size_eq, h.budget⟩
  · intro s hs
    rw [size_setMarks]
    exact h.bounded s hs
  · intro s
    rw [isMarked_setMarks]
    constructor
    · intro hs
      split at hs
      · cases hs
      · -- Only touched states are marked, and these are in range.
        rename_i hkept
        have htouched := (h.marks s).mp hs
        exact absurd ⟨htouched, h.bounded s (h.touched_mem s htouched)⟩ hkept
    · intro hs
      cases hs
  · intro s hs
    cases hs
  · intro b hb
    cases hb

theorem Sound.step (hall : ∀ table ∈ all, ∀ p t, p ∈ table.getD t [] → p ∈ states) {l l' : Loop}
    (h : Sound states all initial l) (hstep : Step all l l') : Sound states all initial l' := by
  cases hstep with
  | pop hqueue =>
      refine ⟨h.partition.pop hqueue, h.bounded, h.marks, h.touched_mem, h.holds,
        fun _ ht => ht, h.size_eq, ?_⟩
      have hold := h.budget
      simp only [hqueue, List.length_cons] at hold ⊢
      omega
  | turn => exact ⟨h.partition, h.bounded, h.marks, h.touched_mem, h.holds, h.tables_mem,
      h.size_eq, h.budget⟩
  | skip _ => exact ⟨h.partition, h.bounded, h.marks, h.touched_mem, h.holds,
      fun t ht => h.tables_mem t (List.mem_cons_of_mem _ ht), h.size_eq, h.budget⟩
  | mark _ => exact h.mark hall
  | keep _ => exact ⟨h.partition, h.bounded, h.marks, h.touched_mem,
      fun c hc => h.holds c (List.mem_cons_of_mem _ hc), h.tables_mem, h.size_eq, h.budget⟩
  | split hnot => exact h.split hnot
  | unmark => exact h.unmark

theorem Sound.reaches (hall : ∀ table ∈ all, ∀ p t, p ∈ table.getD t [] → p ∈ states)
    {l l' : Loop} (h : Sound states all initial l) (hreach : Reaches all l l') :
    Sound states all initial l' := by
  induction hreach with
  | refl => exact h
  | tail _ hstep ih => exact ih.step hall hstep

end Sound

/-- The loop at its entry. -/
def first (size : Nat) (groups : List (List Nat)) : Loop := ⟨.turn, start size groups, 0, 0⟩

theorem sound_first {states : List Nat} {size : Nat} {groups : List (List Nat)}
    (h : Grouping states groups) (hsize : ∀ s ∈ states, s < size)
    (tables : List (Array (List Nat))) :
    Sound states tables groups.length (first size groups) where
  partition := partition_start h hsize
  bounded := (unmarked_start groups hsize).bounded
  marks s := by simp [first, Stage.touched, (unmarked_start groups hsize).clear s]
  touched_mem s hs := by cases hs
  holds b hb := by cases hb
  tables_mem t ht := by cases ht
  size_eq := by simp [first, start]
  budget := by simp [first, start]

end Loop

end Refinement

namespace Dfa

open Refinement

/-- The predecessors of the reachable states, label by label. -/
def tables (d : Dfa) : List (Array (List Nat)) :=
  (d.alphabet d.reachable).map (d.predecessors d.reachable)

theorem mem_reachable_of_mem_tables {d : Dfa} (hin : d.InRange) :
    ∀ table ∈ d.tables, ∀ p t, p ∈ table.getD t [] → p ∈ d.reachable := by
  intro table htable p t hp
  obtain ⟨l, _, rfl⟩ := List.mem_map.mp htable
  exact ((mem_predecessors hin).mp hp).1

/-- The loop as it starts on the reachable states. -/
def entry (d : Dfa) : Loop := Loop.first d.states.size (d.initialGroups d.reachable)

/-- The refinement loop passes through the run's rounds. From every moment it goes on to its end,
where it has computed the refinement. By any moment it has taken at most one splitter off the queue
for each initial block and one for each split, which is no more than there are reachable states. The
blocks are a partition of these states, the table of owners and the queue's flags agree with them,
and only the states touched by a pass under way are marked. -/
theorem refinement_loop_ends {d : Dfa} (hin : d.InRange) :
    (∀ rounds, ∃ pops splits, Loop.Reaches d.tables d.entry
      ⟨.turn, run d.tables rounds d.entry.refinement, pops, splits⟩) ∧
    (∃ last, Loop.Reaches d.tables d.entry last ∧ (∀ next, ¬Loop.Step d.tables last next) ∧
      last.refinement = d.refinement ∧
      ∀ l, Loop.Reaches d.tables d.entry l → Loop.Reaches d.tables l last) ∧
    ∀ l, Loop.Reaches d.tables d.entry l →
      l.pops ≤ (d.initialGroups d.reachable).length + l.splits ∧
      (d.initialGroups d.reachable).length + l.splits = l.refinement.blocks.size ∧
      l.refinement.blocks.size ≤ d.reachable.length ∧
      Grouping d.reachable l.refinement.blocks.toList ∧
      Partition d.reachable l.refinement ∧
      ∀ s, l.refinement.isMarked s = true ↔ s ∈ l.stage.touched := by
  have hrun := fun rounds => Loop.reaches_run d.tables rounds d.entry.refinement 0 0
  have hsound : ∀ l, Loop.Reaches d.tables d.entry l →
      Loop.Sound d.reachable d.tables (d.initialGroups d.reachable).length l := by
    intro l hl
    exact (Loop.sound_first (grouping_initialGroups d d.reachable)
      (fun _ => lt_of_mem_reachable) d.tables).reaches (mem_reachable_of_mem_tables hin) hl
  refine ⟨?_, ?_, ?_⟩
  · intro rounds
    obtain ⟨pops, splits, hreach, _⟩ := hrun rounds
    exact ⟨pops, splits, hreach⟩
  · obtain ⟨pops, splits, hreach, hend⟩ := hrun d.reachable.length
    have hlast : Loop.Reaches d.tables d.entry ⟨.turn, d.refinement, pops, splits⟩ := hreach
    have hbudget : pops + d.refinement.queue.length ≤ d.refinement.blocks.size :=
      (hsound _ hlast).budget
    have hle : d.refinement.blocks.size ≤ d.reachable.length := (hsound _ hlast).partition.size_le
    -- A run that has used all its rounds has no splitter left either.
    have hempty : d.refinement.queue = [] := by
      cases hend with
      | inl hempty => exact hempty
      | inr hpops => exact List.eq_nil_of_length_eq_zero (by omega)
    have hstop : ∀ next, ¬Loop.Step d.tables ⟨.turn, d.refinement, pops, splits⟩ next := by
      intro next hnext
      cases hnext with
      | pop hqueue =>
          rw [hempty] at hqueue
          cases hqueue
    exact ⟨_, hlast, hstop, rfl, fun l hl => hl.of_stopped hlast hstop⟩
  · intro l hl
    have h := hsound l hl
    have hbudget := h.budget
    have hsize := h.size_eq
    exact ⟨by omega, hsize.symm, h.partition.size_le, h.partition.grouping, h.partition, h.marks⟩

/-- One state has two edges with the same label, into an accepting and a rejecting state. -/
def forked : Dfa :=
  ⟨#[⟨"A", [], false, [(.ofSymbol (.byte 97), 1), (.ofSymbol (.byte 97), 2)]⟩,
    ⟨"B", [], true, []⟩,
    ⟨"C", [], false, [(.ofSymbol (.byte 97), 0)]⟩]⟩

theorem refinement_loop_ends_forked :
    forked.InRange ∧ ¬forked.Unambiguous ∧
      ∃ last, Loop.Reaches forked.tables forked.entry last ∧
        (∀ next, ¬Loop.Step forked.tables last next) ∧
        last.refinement.blocks = #[[1], [0], [2]] ∧ last.splits = 1 ∧ last.pops ≤ 3 := by
  have hin : forked.InRange :=
    forall_edges (P := fun es => ∀ e ∈ es, e.2 < forked.states.size) (by simp) (by decide)
  have hun : ¬forked.Unambiguous := by
    intro h
    have heq := h 0 (.ofSymbol (.byte 97)) 1 2 (by decide) (by decide)
    cases heq
  have hblocks : forked.refinement.blocks = #[[1], [0], [2]] := by decide +kernel
  have hgroups : (forked.initialGroups forked.reachable).length = 2 := by decide +kernel
  obtain ⟨-, ⟨last, hlast, hstop, hrefinement, -⟩, hall⟩ := refinement_loop_ends hin
  obtain ⟨hpops, hsplits, -⟩ := hall last hlast
  rw [hgroups] at hpops hsplits
  rw [← hrefinement] at hblocks
  have hsize : last.refinement.blocks.size = 3 := by rw [hblocks]; rfl
  exact ⟨hin, hun, last, hlast, hstop, hblocks, by omega, by omega⟩

end Dfa

end PatternCircuit
