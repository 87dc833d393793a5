import Mathlib.Data.List.Perm.Subperm
import PatternCircuit.Automaton.Refinement
import PatternCircuit.Proofs.Label
import PatternCircuit.Proofs.Sorting

/-! # Correctness of partition refinement

Refinement ends with the coarsest partition that is stable under all predecessor tables. A block
that has left the queue needs no second turn: whether two states agree on it follows from the
splitters that wait. -/

namespace PatternCircuit

/-! ### Tables over states -/

namespace Table

/-- Gives some entries of a table the same value. -/
def assign {α : Type} (table : Array α) (states : List Nat) (value : α) : Array α :=
  states.foldl (fun table s => table.setIfInBounds s value) table

@[simp] theorem size_assign {α : Type} (table : Array α) (states : List Nat) (value : α) :
    (assign table states value).size = table.size := by
  unfold assign
  induction states generalizing table with
  | nil => rfl
  | cons s states ih => simp [ih]

theorem getD_assign {α : Type} (table : Array α) (states : List Nat) (value default : α) (i : Nat) :
    (assign table states value).getD i default =
      if i ∈ states ∧ i < table.size then value else table.getD i default := by
  unfold assign
  induction states generalizing table with
  | nil => simp
  | cons s states ih =>
      rw [List.foldl_cons, ih, Array.size_setIfInBounds]
      simp only [Array.getD_eq_getD_getElem?, Array.getElem?_setIfInBounds, List.mem_cons]
      by_cases hs : s = i
      · subst hs
        by_cases hlt : s < table.size <;> simp [hlt]
      · simp [hs, Ne.symm hs]

variable {α : Type} (members : α → List Nat)

/-- Gives the members of each group the number of the group, counted from an offset. -/
def assignGroups (groups : List α) (offset : Nat) (table : Array Nat) : Array Nat :=
  (groups.zipIdx offset).foldl (fun table g => assign table (members g.1) g.2) table

@[simp] theorem size_assignGroups (groups : List α) (offset : Nat) (table : Array Nat) :
    (assignGroups members groups offset table).size = table.size := by
  unfold assignGroups
  induction groups generalizing offset table with
  | nil => rfl
  | cons g groups ih => rw [List.zipIdx_cons, List.foldl_cons, ih, size_assign]

theorem getD_assignGroups_of_notMem {groups : List α} {s : Nat}
    (h : ∀ g ∈ groups, s ∉ members g) (offset : Nat) (table : Array Nat) :
    (assignGroups members groups offset table).getD s 0 = table.getD s 0 := by
  unfold assignGroups
  induction groups generalizing offset table with
  | nil => rfl
  | cons g groups ih =>
      rw [List.zipIdx_cons, List.foldl_cons, ih fun g' hg' => h g' (by simp [hg']), getD_assign]
      simp [h g (by simp)]

theorem getD_assignGroups {groups : List α}
    (hdisjoint : groups.Pairwise fun g g' => ∀ s ∈ members g, s ∉ members g') {i : Nat} {g : α}
    (hi : groups[i]? = some g) {s : Nat} (hs : s ∈ members g) (offset : Nat) {t : Array Nat}
    (hlt : s < t.size) : (assignGroups members groups offset t).getD s 0 = offset + i := by
  induction groups generalizing offset t i with
  | nil => simp at hi
  | cons g' groups ih =>
      obtain ⟨hhead, htail⟩ := List.pairwise_cons.mp hdisjoint
      have hstep : assignGroups members (g' :: groups) offset t =
          assignGroups members groups (offset + 1) (assign t (members g') offset) := rfl
      rw [hstep]
      cases i with
      | zero =>
          cases hi
          rw [getD_assignGroups_of_notMem members fun g'' hg'' => hhead g'' hg'' s hs,
            getD_assign, if_pos ⟨hs, hlt⟩]
          rfl
      | succ i =>
          rw [ih htail hi (offset + 1) (by simpa using hlt)]
          omega

end Table

namespace Refinement

/-! ### Partitions -/

/-- The number of a state's block. -/
def owner (r : Refinement) (s : Nat) : Nat := r.blockOf.getD s 0

/-- The blocks are disjoint, not empty and cover the states, and the queue is what its flags say. -/
structure Partition (states : List Nat) (r : Refinement) : Prop where
  mem_block : ∀ b s, s ∈ r.block b ↔ s ∈ states ∧ r.owner s = b
  nonempty : ∀ b < r.blocks.size, r.block b ≠ []
  bounded : ∀ s ∈ states, s < r.blockOf.size
  size_queued : r.queued.size = r.blocks.size
  mem_queue : ∀ b, b ∈ r.queue ↔ r.isQueued b = true
  nodup_queue : r.queue.Nodup

namespace Partition

variable {states : List Nat} {r : Refinement}

theorem owner_lt (h : Partition states r) {s : Nat} (hs : s ∈ states) :
    r.owner s < r.blocks.size := by
  have hmem := (h.mem_block _ s).mpr ⟨hs, rfl⟩
  by_contra hlt
  have hempty : r.block (r.owner s) = [] := by
    simp [block, Array.getD_eq_getD_getElem?, Nat.le_of_not_lt hlt]
  rw [hempty] at hmem
  cases hmem

theorem exists_owner (h : Partition states r) {b : Nat} (hb : b < r.blocks.size) :
    ∃ s ∈ states, r.owner s = b := by
  obtain ⟨s, hs⟩ := List.exists_mem_of_ne_nil _ (h.nonempty b hb)
  exact ⟨s, (h.mem_block b s).mp hs⟩

theorem lt_of_mem_queue (h : Partition states r) {b : Nat} (hb : b ∈ r.queue) :
    b < r.blocks.size := by
  have hq := (h.mem_queue b).mp hb
  rw [← h.size_queued]
  by_contra hlt
  simp [isQueued, Array.getD_eq_getD_getElem?, Nat.le_of_not_lt hlt] at hq

theorem isQueued_size (h : Partition states r) : r.isQueued r.blocks.size = false := by
  rw [← h.size_queued]
  simp [isQueued, Array.getD_eq_getD_getElem?]

/-- There are no more blocks than states. -/
theorem size_le (h : Partition states r) : r.blocks.size ≤ states.length := by
  have hchoice : ∀ b, ∃ s, b < r.blocks.size → s ∈ states ∧ r.owner s = b := by
    intro b
    by_cases hb : b < r.blocks.size
    · obtain ⟨s, hs⟩ := h.exists_owner hb
      exact ⟨s, fun _ => hs⟩
    · exact ⟨0, fun hb' => absurd hb' hb⟩
  choose member hmember using hchoice
  have hnodup : ((List.range r.blocks.size).map member).Nodup := by
    refine List.Nodup.map_on ?_ List.nodup_range
    intro b hb c hc heq
    rw [List.mem_range] at hb hc
    rw [← (hmember b hb).2, ← (hmember c hc).2, heq]
  have hsubset : (List.range r.blocks.size).map member ⊆ states := by
    intro s hs
    obtain ⟨b, hb, rfl⟩ := List.mem_map.mp hs
    exact (hmember b (List.mem_range.mp hb)).1
  simpa using (List.subperm_of_subset hnodup hsubset).length_le

end Partition

/-! ### Splitting one block -/

theorem block_divide (r : Refinement) {b : Nat} (hb : b < r.blocks.size) (inside outside : List Nat)
    (c : Nat) : (r.divide b inside outside).block c =
      if c = r.blocks.size then outside else if c = b then inside else r.block c := by
  simp only [block, divide, Array.getD_eq_getD_getElem?, Array.getElem?_push,
    Array.size_setIfInBounds, Array.getElem?_setIfInBounds]
  by_cases hc : c = r.blocks.size
  · simp [hc]
  · by_cases hcb : c = b
    · subst hcb
      simp [hc, hb]
    · simp [hc, hcb, Ne.symm hcb]

theorem owner_divide (r : Refinement) (b : Nat) (inside outside : List Nat) {s : Nat}
    (hs : s < r.blockOf.size) : (r.divide b inside outside).owner s =
      if s ∈ outside then r.blocks.size else r.owner s := by
  have h := Table.getD_assign r.blockOf outside r.blocks.size 0 s
  simp only [hs, and_true] at h
  exact h

theorem isQueued_divide (r : Refinement) (b : Nat) (inside outside : List Nat) (c : Nat) :
    (r.divide b inside outside).isQueued c = r.isQueued c := by
  simp only [isQueued, divide, Array.getD_eq_getD_getElem?, Array.getElem?_push]
  by_cases hc : c = r.queued.size
  · simp [hc]
  · simp [hc]

namespace Partition

variable {states : List Nat} {r : Refinement}

theorem enqueue (h : Partition states r) {c : Nat} (hc : c < r.blocks.size)
    (hnew : r.isQueued c = false) : Partition states (r.enqueue c) where
  mem_block := h.mem_block
  nonempty := h.nonempty
  bounded := h.bounded
  size_queued := by
    rw [Refinement.enqueue, Array.size_setIfInBounds]
    exact h.size_queued
  mem_queue b := by
    have hlt : c < r.queued.size := h.size_queued ▸ hc
    have hold := h.mem_queue b
    simp only [Refinement.isQueued, Refinement.enqueue, Array.getD_eq_getD_getElem?,
      Array.getElem?_setIfInBounds, List.mem_append, List.mem_singleton] at hold ⊢
    by_cases hbc : b = c
    · subst hbc
      simp [hlt]
    · simp [hbc, Ne.symm hbc, hold]
  nodup_queue := by
    have hout : c ∉ r.queue := fun hmem => by
      rw [h.mem_queue, hnew] at hmem
      cases hmem
    exact List.nodup_append.mpr ⟨h.nodup_queue, by simp, by grind⟩

theorem divide (h : Partition states r) {b : Nat} (hb : b < r.blocks.size)
    {inside outside : List Nat} (hinside : inside ≠ []) (houtside : outside ≠ [])
    (hmem : ∀ s, s ∈ r.block b ↔ s ∈ inside ∨ s ∈ outside)
    (hdisjoint : ∀ s ∈ inside, s ∉ outside) : Partition states (r.divide b inside outside) where
  mem_block c s := by
    rw [block_divide r hb]
    by_cases hs : s ∈ states
    · have hold := h.mem_block c s
      have hblock := h.mem_block b s
      have hlt := h.owner_lt hs
      have hmem := hmem s
      have hdisjoint := hdisjoint s
      rw [owner_divide r b inside outside (h.bounded s hs)]
      grind
    · have hno : ∀ d, s ∉ r.block d := fun d hd => hs ((h.mem_block d s).mp hd).1
      have hnot := hno b
      rw [hmem] at hnot
      have hnoc := hno c
      grind
  nonempty c hc := by
    rw [block_divide r hb]
    have hsize : c < r.blocks.size + 1 := by simpa [Refinement.divide] using hc
    split
    · exact houtside
    · split
      · exact hinside
      · exact h.nonempty c (by omega)
  bounded s hs := by
    have hsize := Table.size_assign r.blockOf outside r.blocks.size
    exact hsize.symm ▸ h.bounded s hs
  size_queued := by simp [Refinement.divide, h.size_queued]
  mem_queue c := by
    rw [isQueued_divide]
    exact h.mem_queue c
  nodup_queue := h.nodup_queue

end Partition

/-- What a split of block `b` does: its unmarked states get a new block, and at least one half
waits in the queue, both if the block did. -/
structure SplitOf (states : List Nat) (r : Refinement) (b : Nat) (r' : Refinement) : Prop where
  partition : Partition states r'
  marked : r'.marked = r.marked
  owner : ∀ s ∈ states, r'.owner s =
    if r.owner s = b ∧ r.isMarked s = false then r.blocks.size else r.owner s
  keeps : ∀ c ∈ r.queue, c ∈ r'.queue
  halves : (∃ s ∈ states, r.owner s = b ∧ r.isMarked s = false) →
    (b ∈ r'.queue ∧ r.blocks.size ∈ r'.queue) ∨
      (b ∉ r.queue ∧ (b ∈ r'.queue ∨ r.blocks.size ∈ r'.queue))
  budget : r'.queue.length + r.blocks.size ≤ r.queue.length + r'.blocks.size

/-- Dividing a block and letting one of its halves, the new one if the block waits, join the
queue. -/
theorem splitOf_enqueue {states : List Nat} {r d : Refinement} (h : Partition states r)
    (hd : Partition states d) (hmarked : d.marked = r.marked) (hqueue : d.queue = r.queue)
    (hqueued : ∀ c, d.isQueued c = r.isQueued c) (hsize : d.blocks.size = r.blocks.size + 1)
    (b half : Nat)
    (howner : ∀ s ∈ states, d.owner s =
      if r.owner s = b ∧ r.isMarked s = false then r.blocks.size else r.owner s)
    (hb : b < r.blocks.size) (hhalf : half = b ∨ half = r.blocks.size)
    (hwaits : r.isQueued b = true → half = r.blocks.size) :
    SplitOf states r b (d.enqueue half) := by
  have hnew : d.isQueued half = false := by
    rw [hqueued]
    by_contra hold
    rw [Bool.not_eq_false] at hold
    rcases hhalf with heq | heq
    · have hcontra := hwaits (heq ▸ hold)
      omega
    · rw [heq, h.isQueued_size] at hold
      cases hold
  have hmem : ∀ c, c ∈ (d.enqueue half).queue ↔ c ∈ r.queue ∨ c = half := by
    intro c
    simp [enqueue, hqueue]
  refine ⟨hd.enqueue (by omega) hnew, hmarked, howner, fun c hc => (hmem c).mpr (.inl hc), ?_, ?_⟩
  · intro _
    by_cases hq : b ∈ r.queue
    · have heq := hwaits ((h.mem_queue b).mp hq)
      exact .inl ⟨(hmem b).mpr (.inl hq), (hmem _).mpr (.inr heq.symm)⟩
    · refine .inr ⟨hq, hhalf.imp ?_ ?_⟩
      · exact fun heq => (hmem b).mpr (.inr heq.symm)
      · exact fun heq => (hmem _).mpr (.inr heq.symm)
  · simp only [enqueue, List.length_append, List.length_singleton, hqueue, hsize]
    omega

theorem splitOf_split {states : List Nat} {r : Refinement} (h : Partition states r) {b : Nat}
    (hb : ∃ s ∈ states, r.owner s = b ∧ r.isMarked s = true) : SplitOf states r b (r.split b) := by
  obtain ⟨m, hm, rfl, hmarked⟩ := hb
  have hlt := h.owner_lt hm
  unfold split
  generalize hin : (r.block (r.owner m)).filter r.isMarked = inside
  generalize hout : (r.block (r.owner m)).filter (fun s => !r.isMarked s) = outside
  have hmemin : ∀ s, s ∈ inside ↔ s ∈ r.block (r.owner m) ∧ r.isMarked s = true := by
    intro s
    rw [← hin, List.mem_filter]
  have hmemout : ∀ s, s ∈ outside ↔ s ∈ r.block (r.owner m) ∧ r.isMarked s = false := by
    intro s
    rw [← hout, List.mem_filter]
    simp
  have hmoved : ∀ s ∈ states, (s ∈ outside ↔ r.owner s = r.owner m ∧ r.isMarked s = false) := by
    intro s hs
    rw [hmemout, h.mem_block]
    simp [hs]
  simp only
  split
  · rename_i hempty
    have hnone : ∀ s ∈ states, ¬(r.owner s = r.owner m ∧ r.isMarked s = false) := by
      intro s hs hmove
      have hs' := (hmoved s hs).mpr hmove
      rw [List.isEmpty_iff.mp hempty] at hs'
      cases hs'
    refine ⟨h, rfl, ?_, fun c hc => hc, ?_, by omega⟩
    · intro s hs
      rw [if_neg (hnone s hs)]
    · rintro ⟨s, hs, hunmarked⟩
      exact absurd hunmarked (hnone s hs)
  · rename_i hne
    have hinside : inside ≠ [] :=
      List.ne_nil_of_mem ((hmemin m).mpr ⟨(h.mem_block _ m).mpr ⟨hm, rfl⟩, hmarked⟩)
    have hd : Partition states (r.divide (r.owner m) inside outside) := by
      refine h.divide hlt hinside (fun hnil => hne (by simp [hnil])) ?_ ?_
      · intro s
        rw [hmemin, hmemout]
        cases r.isMarked s <;> simp
      · intro s hs
        rw [hmemout]
        simp [((hmemin s).mp hs).2]
    have howner : ∀ s ∈ states, (r.divide (r.owner m) inside outside).owner s =
        if r.owner s = r.owner m ∧ r.isMarked s = false then r.blocks.size else r.owner s := by
      intro s hs
      rw [owner_divide r _ _ _ (h.bounded s hs)]
      simp only [hmoved s hs]
    have hsize : (r.divide (r.owner m) inside outside).blocks.size = r.blocks.size + 1 := by
      simp [divide]
    have henqueue := fun half => splitOf_enqueue h hd rfl rfl (isQueued_divide r _ _ _) hsize
      (r.owner m) half howner hlt
    split
    · exact henqueue _ (.inr rfl) fun _ => rfl
    · rename_i hwaits
      generalize hhalf :
        (if inside.length ≤ outside.length then r.owner m else r.blocks.size) = half
      have hcases : half = r.owner m ∨ half = r.blocks.size := by
        rw [← hhalf]
        split <;> simp
      have hnew : (r.divide (r.owner m) inside outside).isQueued half = false := by
        rw [isQueued_divide]
        rcases hcases with heq | heq
        · rwa [heq, ← Bool.not_eq_true]
        · rw [heq, h.isQueued_size]
      rw [hnew]
      exact henqueue half hcases fun hw => absurd hw hwaits

/-! ### What the queue still owes -/

/-- The state has an edge into the set, by a table that lists predecessors. -/
def Into (table : Array (List Nat)) (target : Nat → Prop) (p : Nat) : Prop :=
  ∃ t, target t ∧ p ∈ table.getD t []

/-- Each state has an edge into at most one state. -/
def Functional (table : Array (List Nat)) : Prop :=
  ∀ p t t', p ∈ table.getD t [] → p ∈ table.getD t' [] → t = t'

/-- Membership in a block. -/
def Within (states : List Nat) (r : Refinement) (b t : Nat) : Prop := t ∈ states ∧ r.owner t = b

/-- Two states of a block agree on all blocks as soon as they agree on those that wait and on some
that have just left the queue. -/
def Justified (states : List Nat) (table : Array (List Nat)) (left : List (List Nat))
    (r : Refinement) : Prop :=
  ∀ p ∈ states, ∀ q ∈ states, r.owner p = r.owner q →
    (∀ B ∈ left, Into table (· ∈ B) p ↔ Into table (· ∈ B) q) →
    (∀ b ∈ r.queue, Into table (Within states r b) p ↔ Into table (Within states r b) q) →
    ∀ b, Into table (Within states r b) p ↔ Into table (Within states r b) q

theorem not_into_both (states : List Nat) (r : Refinement) {table : Array (List Nat)}
    (htable : Functional table) {b c : Nat} (hne : b ≠ c) (p : Nat) :
    ¬(Into table (Within states r b) p ∧ Into table (Within states r c) p) := by
  rintro ⟨⟨t, ⟨_, ht⟩, hpt⟩, ⟨t', ⟨_, ht'⟩, hpt'⟩⟩
  rw [htable p t t' hpt hpt'] at ht
  exact hne (ht.symm.trans ht')

namespace SplitOf

variable {states : List Nat} {r r' : Refinement} {b : Nat}

theorem isMarked_eq (h : SplitOf states r b r') (s : Nat) : r'.isMarked s = r.isMarked s := by
  rw [isMarked, h.marked]
  rfl

theorem refines (h : SplitOf states r b r') (hr : Partition states r) {p q : Nat}
    (hp : p ∈ states) (hq : q ∈ states) (heq : r'.owner p = r'.owner q) :
    r.owner p = r.owner q := by
  have hltp := hr.owner_lt hp
  have hltq := hr.owner_lt hq
  rw [h.owner p hp, h.owner q hq] at heq
  split at heq <;> split at heq <;> omega

/-- Blocks other than the two halves stay as they are. -/
theorem within_of_ne (h : SplitOf states r b r') {c : Nat} (hcb : c ≠ b)
    (hfresh : c ≠ r.blocks.size) (t : Nat) : Within states r' c t ↔ Within states r c t := by
  unfold Within
  refine and_congr_right fun ht => ?_
  rw [h.owner t ht]
  split <;> omega

/-- The halves make up the block that was split. -/
theorem within_halves (h : SplitOf states r b r') (hr : Partition states r) (t : Nat) :
    Within states r b t ↔ Within states r' b t ∨ Within states r' r.blocks.size t := by
  unfold Within
  by_cases ht : t ∈ states
  · have hlt := hr.owner_lt ht
    rw [h.owner t ht]
    simp only [ht, true_and]
    split <;> omega
  · simp [ht]

theorem into_of_ne (h : SplitOf states r b r') {c : Nat} (hcb : c ≠ b)
    (hfresh : c ≠ r.blocks.size) (table : Array (List Nat)) (p : Nat) :
    Into table (Within states r' c) p ↔ Into table (Within states r c) p := by
  simp only [Into, h.within_of_ne hcb hfresh]

theorem into_halves (h : SplitOf states r b r') (hr : Partition states r)
    (table : Array (List Nat)) (p : Nat) : Into table (Within states r b) p ↔
      Into table (Within states r' b) p ∨ Into table (Within states r' r.blocks.size) p := by
  simp only [Into, h.within_halves hr, or_and_right, exists_or]

/-- A split leaves no more to be done than its halves in the queue account for. -/
theorem justified (h : SplitOf states r b r') (hr : Partition states r) (hb : b < r.blocks.size)
    {table : Array (List Nat)} (htable : Functional table) {left : List (List Nat)}
    (hj : Justified states table left r) : Justified states table left r' := by
  intro p hp q hq howner hleft hqueue
  have hsame := h.refines hr hp hq howner
  by_cases hmoved : ∃ s ∈ states, r.owner s = b ∧ r.isMarked s = false
  · have hhalves := h.halves hmoved
    have hold : ∀ c ∈ r.queue,
        (Into table (Within states r c) p ↔ Into table (Within states r c) q) := by
      intro c hc
      have hlt := hr.lt_of_mem_queue hc
      by_cases hcb : c = b
      · subst hcb
        rcases hhalves with ⟨hin, hout⟩ | ⟨hnot, _⟩
        · rw [h.into_halves hr, h.into_halves hr, hqueue _ hin, hqueue _ hout]
        · exact absurd hc hnot
      · have hne : c ≠ r.blocks.size := by omega
        rw [← h.into_of_ne hcb hne, ← h.into_of_ne hcb hne]
        exact hqueue c (h.keeps c hc)
    have hall := hj p hp q hq hsame hleft hold
    have hblock := hall b
    have hp' := not_into_both states r' htable (Nat.ne_of_lt hb) p
    have hq' := not_into_both states r' htable (Nat.ne_of_lt hb) q
    rw [h.into_halves hr, h.into_halves hr] at hblock
    -- Agreement on the whole block and on one half is agreement on the other half.
    have hpair : (Into table (Within states r' b) p ↔ Into table (Within states r' b) q) ∧
        (Into table (Within states r' r.blocks.size) p ↔
          Into table (Within states r' r.blocks.size) q) := by
      rcases hhalves with ⟨hin, hout⟩ | ⟨_, hin | hout⟩
      · exact ⟨hqueue _ hin, hqueue _ hout⟩
      · have := hqueue _ hin
        tauto
      · have := hqueue _ hout
        tauto
    intro c
    by_cases hcb : c = b
    · exact hcb ▸ hpair.1
    · by_cases hfresh : c = r.blocks.size
      · exact hfresh ▸ hpair.2
      · rw [h.into_of_ne hcb hfresh, h.into_of_ne hcb hfresh]
        exact hall c
  · have hwithin : ∀ c, Within states r' c = Within states r c := by
      intro c
      funext t
      refine propext (and_congr_right fun ht => ?_)
      rw [h.owner t ht, if_neg fun hmove => hmoved ⟨t, ht, hmove⟩]
    simp only [hwithin] at hqueue ⊢
    exact hj p hp q hq hsame hleft fun c hc => hqueue c (h.keeps c hc)

end SplitOf

/-! ### Passes -/

/-- One partition is got from another by splitting blocks. -/
structure Refined (states : List Nat) (r r' : Refinement) : Prop where
  partition : Partition states r'
  refines : ∀ p ∈ states, ∀ q ∈ states, r'.owner p = r'.owner q → r.owner p = r.owner q
  budget : r'.queue.length + r.blocks.size ≤ r.queue.length + r'.blocks.size
  justified : ∀ table left, Functional table → Justified states table left r →
    Justified states table left r'

namespace Refined

variable {states : List Nat} {r r' r'' : Refinement}

theorem refl (h : Partition states r) : Refined states r r :=
  ⟨h, fun _ _ _ _ heq => heq, by omega, fun _ _ _ hj => hj⟩

theorem trans (h : Refined states r r') (h' : Refined states r' r'') : Refined states r r'' where
  partition := h'.partition
  refines p hp q hq heq := h.refines p hp q hq (h'.refines p hp q hq heq)
  budget := by
    have hfirst := h.budget
    have hsecond := h'.budget
    omega
  justified table left htable hj :=
    h'.justified table left htable (h.justified table left htable hj)

end Refined

theorem SplitOf.refined {states : List Nat} {r r' : Refinement} {b : Nat}
    (h : SplitOf states r b r') (hr : Partition states r) (hb : b < r.blocks.size) :
    Refined states r r' where
  partition := h.partition
  refines _ hp _ hq heq := h.refines hr hp hq heq
  budget := h.budget
  justified _ _ htable hj := h.justified hr hb htable hj

/-- Splitting blocks that hold a marked state tells marked from unmarked states in these blocks and
keeps together what is marked alike. -/
theorem splits_spec {states : List Nat} (bs : List Nat) (hbs : bs.Nodup) {r : Refinement}
    (h : Partition states r)
    (hmarked : ∀ b ∈ bs, ∃ s ∈ states, r.owner s = b ∧ r.isMarked s = true) :
    Refined states r (bs.foldl split r) ∧ (bs.foldl split r).marked = r.marked ∧
      (∀ p ∈ states, ∀ q ∈ states, r.isMarked p = true → r.isMarked q = false →
        r.owner p ∈ bs ∨ r.owner p ≠ r.owner q →
        (bs.foldl split r).owner p ≠ (bs.foldl split r).owner q) ∧
      (∀ p ∈ states, ∀ q ∈ states, r.isMarked p = r.isMarked q → r.owner p = r.owner q →
        (bs.foldl split r).owner p = (bs.foldl split r).owner q) := by
  induction bs generalizing r with
  | nil => exact ⟨.refl h, rfl, by simp, fun _ _ _ _ _ heq => heq⟩
  | cons b bs ih =>
      obtain ⟨hnew, hbs⟩ := List.nodup_cons.mp hbs
      obtain ⟨m, hm, hmb, hmm⟩ := hmarked b (by simp)
      have hlt : b < r.blocks.size := hmb ▸ h.owner_lt hm
      have hsplit := splitOf_split h (hmarked b (by simp))
      have hmarks := hsplit.isMarked_eq
      have hstays : ∀ s ∈ states, r.isMarked s = true → (r.split b).owner s = r.owner s := by
        intro s hs hms
        rw [hsplit.owner s hs]
        simp [hms]
      obtain ⟨hrefined, hmarked', hapart, htogether⟩ := ih hbs hsplit.partition (by
        intro c hc
        obtain ⟨s, hs, howner, hms⟩ := hmarked c (by simp [hc])
        exact ⟨s, hs, (hstays s hs hms).trans howner, (hmarks s).trans hms⟩)
      refine ⟨(hsplit.refined h hlt).trans hrefined, hmarked'.trans hsplit.marked, ?_, ?_⟩
      · intro p hp q hq hmp hmq hcase
        apply hapart p hp q hq ((hmarks p).trans hmp) ((hmarks q).trans hmq)
        rw [hstays p hp hmp]
        have hltp := h.owner_lt hp
        rcases hcase with hmem | hne
        · rcases List.mem_cons.mp hmem with heq | hmem
          · -- The block of `p` is split now, and only `q` moves.
            right
            rw [hsplit.owner q hq]
            split
            · omega
            · rename_i hstay
              exact fun hpq => hstay ⟨hpq.symm.trans heq, hmq⟩
          · exact .inl hmem
        · right
          rw [hsplit.owner q hq]
          split
          · omega
          · exact hne
      · intro p hp q hq hmm heq
        apply htogether p hp q hq (by rw [hmarks, hmarks, hmm])
        rw [hsplit.owner p hp, hsplit.owner q hq, hmm, heq]

theorem Partition.setMarks {states : List Nat} {r : Refinement} (h : Partition states r)
    (touched : List Nat) (value : Bool) : Partition states (r.setMarks touched value) :=
  ⟨h.mem_block, h.nonempty, h.bounded, h.size_queued, h.mem_queue, h.nodup_queue⟩

/-- No state is marked, and all states could be. -/
structure Unmarked (states : List Nat) (r : Refinement) : Prop where
  bounded : ∀ s ∈ states, s < r.marked.size
  clear : ∀ s, r.isMarked s = false

/-- The states of a block agree on having an edge into the set. -/
def Uniform (states : List Nat) (table : Array (List Nat)) (splitter : List Nat) (r : Refinement) :
    Prop :=
  ∀ p ∈ states, ∀ q ∈ states, r.owner p = r.owner q →
    (Into table (· ∈ splitter) p ↔ Into table (· ∈ splitter) q)

theorem isMarked_setMarks (r : Refinement) (touched : List Nat) (value : Bool) (s : Nat) :
    (r.setMarks touched value).isMarked s =
      if s ∈ touched ∧ s < r.marked.size then value else r.isMarked s :=
  Table.getD_assign r.marked touched value false s

theorem size_setMarks (r : Refinement) (touched : List Nat) (value : Bool) :
    (r.setMarks touched value).marked.size = r.marked.size :=
  Table.size_assign r.marked touched value

theorem Unmarked.isMarked_setMarks_iff {states touched : List Nat} {r : Refinement}
    (h : Unmarked states r) (hin : ∀ s ∈ touched, s ∈ states) (s : Nat) :
    (r.setMarks touched true).isMarked s = true ↔ s ∈ touched := by
  rw [isMarked_setMarks, h.clear]
  constructor
  · intro hs
    by_contra hnot
    simp [hnot] at hs
  · intro hs
    rw [if_pos ⟨hs, h.bounded s (hin s hs)⟩]

theorem mem_blocksOf {r : Refinement} {touched : List Nat} {b : Nat} :
    b ∈ r.blocksOf touched ↔ ∃ s ∈ touched, r.owner s = b := by
  simp [blocksOf, owner]

/-- One pass makes the blocks uniform and separates nothing else. -/
theorem splitBy_spec {states : List Nat} {table : Array (List Nat)}
    (htable : ∀ p t, p ∈ table.getD t [] → p ∈ states) (splitter : List Nat) {r : Refinement}
    (h : Partition states r) (hmarks : Unmarked states r) :
    Refined states r (splitBy splitter r table) ∧ Unmarked states (splitBy splitter r table) ∧
      Uniform states table splitter (splitBy splitter r table) ∧
      (∀ p ∈ states, ∀ q ∈ states,
        (Into table (· ∈ splitter) p ↔ Into table (· ∈ splitter) q) → r.owner p = r.owner q →
        (splitBy splitter r table).owner p = (splitBy splitter r table).owner q) := by
  have hmem : ∀ p, p ∈ splitter.flatMap (fun s => table.getD s []) ↔
      Into table (· ∈ splitter) p := by
    intro p
    simp only [List.mem_flatMap, Into]
  unfold splitBy
  generalize splitter.flatMap (fun s => table.getD s []) = touched at hmem
  simp only
  split
  · rename_i hempty
    rw [List.isEmpty_iff.mp hempty] at hmem
    refine ⟨.refl h, hmarks, ?_, fun p _ q _ _ heq => heq⟩
    intro p _ q _ _
    rw [← hmem, ← hmem]
    simp
  · have hin : ∀ p ∈ touched, p ∈ states := by
      intro p hp
      obtain ⟨t, _, hpt⟩ := (hmem p).mp hp
      exact htable p t hpt
    have hset := hmarks.isMarked_setMarks_iff hin
    obtain ⟨hrefined, hmarked, hapart, htogether⟩ :=
      splits_spec ((r.setMarks touched true).blocksOf touched) (nodup_eraseDups _)
        (h.setMarks touched true) (by
        intro b hb
        obtain ⟨s, hs, howner⟩ := mem_blocksOf.mp hb
        exact ⟨s, hin s hs, howner, (hset s).mpr hs⟩)
    generalize hdone : ((r.setMarks touched true).blocksOf touched).foldl split
      (r.setMarks touched true) = done at hrefined hmarked hapart htogether ⊢
    refine ⟨⟨hrefined.partition.setMarks touched false, hrefined.refines, hrefined.budget,
      hrefined.justified⟩, ⟨?_, ?_⟩, ?_, ?_⟩
    · intro s hs
      rw [size_setMarks, hmarked, size_setMarks]
      exact hmarks.bounded s hs
    · intro s
      rw [isMarked_setMarks, hmarked]
      split
      · rfl
      · rename_i hnot
        rw [size_setMarks] at hnot
        have hsame : done.isMarked s = (r.setMarks touched true).isMarked s := by
          rw [isMarked, hmarked]
          rfl
        rw [hsame, isMarked_setMarks, if_neg hnot, hmarks.clear]
    · -- A marked state's block was split, so its states are all marked.
      have hall : ∀ p ∈ states, ∀ q ∈ states, done.owner p = done.owner q → p ∈ touched →
          q ∈ touched := by
        intro p hp q hq heq hpt
        by_contra hqt
        have hqm : (r.setMarks touched true).isMarked q = false := by
          rw [← Bool.not_eq_true, hset]
          exact hqt
        exact hapart p hp q hq ((hset p).mpr hpt) hqm (.inl (mem_blocksOf.mpr ⟨p, hpt, rfl⟩)) heq
      intro p hp q hq heq
      rw [← hmem, ← hmem]
      exact ⟨hall p hp q hq heq, hall q hq p hp heq.symm⟩
    · intro p hp q hq hagree heq
      refine htogether p hp q hq ?_ heq
      rw [Bool.eq_iff_iff, hset, hset, hmem, hmem]
      exact hagree

theorem Uniform.mono {states : List Nat} {table : Array (List Nat)} {splitter : List Nat}
    {r r' : Refinement} (h : Uniform states table splitter r) (hr : Refined states r r') :
    Uniform states table splitter r' :=
  fun p hp q hq heq => h p hp q hq (hr.refines p hp q hq heq)

/-! ### The whole run -/

/-- A predecessor table over the states. -/
structure TableOver (states : List Nat) (table : Array (List Nat)) : Prop where
  functional : Functional table
  source_mem : ∀ p t, p ∈ table.getD t [] → p ∈ states
  target_mem : ∀ p t, p ∈ table.getD t [] → t ∈ states

/-- Related states have, by every table, edges into related states. -/
def Bisimulation (tables : List (Array (List Nat))) (E : Nat → Nat → Prop) : Prop :=
  (∀ p q, E p q → E q p) ∧
    ∀ table ∈ tables, ∀ p q, E p q → ∀ t, p ∈ table.getD t [] → ∃ t', q ∈ table.getD t' [] ∧ E t t'

/-- Related states are in the same block. -/
def Keeps (states : List Nat) (E : Nat → Nat → Prop) (r : Refinement) : Prop :=
  ∀ p ∈ states, ∀ q ∈ states, E p q → r.owner p = r.owner q

section Run

variable {states : List Nat}

/-- One splitter, acting by every table. -/
theorem splitByAll_spec (tables : List (Array (List Nat)))
    (htables : ∀ table ∈ tables, TableOver states table) (splitter : List Nat) {r : Refinement}
    (h : Partition states r) (hmarks : Unmarked states r) :
    Refined states r (tables.foldl (splitBy splitter) r) ∧
      Unmarked states (tables.foldl (splitBy splitter) r) ∧
      (∀ table ∈ tables, Uniform states table splitter (tables.foldl (splitBy splitter) r)) ∧
      (∀ p ∈ states, ∀ q ∈ states,
        (∀ table ∈ tables, Into table (· ∈ splitter) p ↔ Into table (· ∈ splitter) q) →
        r.owner p = r.owner q →
        (tables.foldl (splitBy splitter) r).owner p =
          (tables.foldl (splitBy splitter) r).owner q) := by
  induction tables generalizing r with
  | nil => exact ⟨.refl h, hmarks, by simp, fun _ _ _ _ _ heq => heq⟩
  | cons table tables ih =>
      obtain ⟨hrefined, hmarks', huniform, htogether⟩ :=
        splitBy_spec (htables table (by simp)).source_mem splitter h hmarks
      obtain ⟨hrest, hmarks'', huniforms, htogethers⟩ :=
        ih (fun t ht => htables t (by simp [ht])) hrefined.partition hmarks'
      refine ⟨hrefined.trans hrest, hmarks'', ?_, ?_⟩
      · intro t ht
        rcases List.mem_cons.mp ht with rfl | ht
        · exact huniform.mono hrest
        · exact huniforms t ht
      · intro p hp q hq hagree heq
        apply htogethers p hp q hq (fun t ht => hagree t (by simp [ht]))
        exact htogether p hp q hq (hagree table (by simp)) heq

/-- The partition after the first splitter has left the queue. -/
theorem Partition.pop {r : Refinement} (h : Partition states r) {b : Nat} {rest : List Nat}
    (hqueue : r.queue = b :: rest) :
    Partition states { r with queue := rest, queued := r.queued.setIfInBounds b false } where
  mem_block := h.mem_block
  nonempty := h.nonempty
  bounded := h.bounded
  size_queued := by
    rw [Array.size_setIfInBounds]
    exact h.size_queued
  mem_queue c := by
    have hold := h.mem_queue c
    have hnodup := h.nodup_queue
    rw [hqueue] at hold hnodup
    obtain ⟨hnot, _⟩ := List.nodup_cons.mp hnodup
    simp only [isQueued, Array.getD_eq_getD_getElem?, Array.getElem?_setIfInBounds,
      List.mem_cons] at hold ⊢
    by_cases hcb : c = b
    · subst hcb
      by_cases hlt : c < r.queued.size <;> simp [hlt, hnot]
    · simpa [hcb, Ne.symm hcb] using hold
  nodup_queue := by
    have hnodup := h.nodup_queue
    rw [hqueue] at hnodup
    exact hnodup.of_cons

theorem Bisimulation.into {tables : List (Array (List Nat))} {E : Nat → Nat → Prop}
    (hE : Bisimulation tables E) {table : Array (List Nat)} (hmem : table ∈ tables)
    {splitter : List Nat} (hclosed : ∀ t t', E t t' → t ∈ splitter → ∀ p,
      p ∈ table.getD t' [] → t' ∈ splitter) {p q : Nat} (h : E p q) :
    Into table (· ∈ splitter) p ↔ Into table (· ∈ splitter) q := by
  have hone : ∀ p q, E p q → Into table (· ∈ splitter) p → Into table (· ∈ splitter) q := by
    rintro p q hpq ⟨t, ht, hpt⟩
    obtain ⟨t', hqt', htt'⟩ := hE.2 table hmem p q hpq t hpt
    exact ⟨t', hclosed t t' htt' ht q hqt', hqt'⟩
  exact ⟨hone p q h, hone q p (hE.1 p q h)⟩

theorem Justified.discharge {table : Array (List Nat)} {splitter : List Nat} {r : Refinement}
    (h : Justified states table [splitter] r) (huniform : Uniform states table splitter r) :
    Justified states table [] r := by
  intro p hp q hq heq _ hqueue
  refine h p hp q hq heq ?_ hqueue
  intro B hB
  rw [List.mem_singleton.mp hB]
  exact huniform p hp q hq heq

/-- When a splitter leaves the queue, agreement on it has to be asked for in another way. -/
theorem Justified.pop {table : Array (List Nat)} {r : Refinement} (hr : Partition states r)
    {b : Nat} {rest : List Nat} (hqueue : r.queue = b :: rest)
    (h : Justified states table [] r) : Justified states table [r.block b]
      { r with queue := rest, queued := r.queued.setIfInBounds b false } := by
  intro p hp q hq heq hleft hrest
  apply h p hp q hq heq (by simp)
  intro c hc
  rw [hqueue] at hc
  rcases List.mem_cons.mp hc with rfl | hc
  · have hblock := hleft (r.block c) (by simp)
    simp only [hr.mem_block] at hblock
    exact hblock
  · exact hrest c hc

theorem Keeps.closed {E : Nat → Nat → Prop} {r : Refinement} (h : Keeps states E r)
    (hr : Partition states r) {b t t' : Nat} (hE : E t t') (ht : t ∈ r.block b)
    (ht' : t' ∈ states) : t' ∈ r.block b := by
  obtain ⟨hmem, howner⟩ := (hr.mem_block b t).mp ht
  exact (hr.mem_block b t').mpr ⟨ht', (h t hmem t' ht' hE).symm.trans howner⟩

/-- With a round for every splitter that waits and every split that can still come, the run ends
with an empty queue. -/
theorem run_spec (tables : List (Array (List Nat)))
    (htables : ∀ table ∈ tables, TableOver states table) (rounds : Nat) {r : Refinement}
    (h : Partition states r) (hmarks : Unmarked states r)
    (hbudget : r.queue.length + states.length ≤ rounds + r.blocks.size)
    (hj : ∀ table ∈ tables, Justified states table [] r) :
    Partition states (run tables rounds r) ∧ (run tables rounds r).queue = [] ∧
      (∀ table ∈ tables, Justified states table [] (run tables rounds r)) ∧
      (∀ p ∈ states, ∀ q ∈ states,
        (run tables rounds r).owner p = (run tables rounds r).owner q → r.owner p = r.owner q) ∧
      ∀ E, Bisimulation tables E → Keeps states E r → Keeps states E (run tables rounds r) := by
  induction rounds generalizing r with
  | zero =>
      refine ⟨h, ?_, hj, fun _ _ _ _ heq => heq, fun _ _ hE => hE⟩
      have hle := h.size_le
      rw [run]
      exact List.eq_nil_of_length_eq_zero (by omega)
  | succ rounds ih =>
      rw [run]
      cases hqueue : r.queue with
      | nil => exact ⟨h, hqueue, hj, fun _ _ _ _ heq => heq, fun _ _ hE => hE⟩
      | cons b rest =>
          simp only
          obtain ⟨hrefined, hmarks', huniform, htogether⟩ :=
            splitByAll_spec tables htables (r.block b) (h.pop hqueue)
              ⟨hmarks.bounded, hmarks.clear⟩
          have hspent := hrefined.budget
          rw [hqueue, List.length_cons] at hbudget
          obtain ⟨hpart, hempty, hjust, hrefines, hkeeps⟩ :=
            ih hrefined.partition hmarks' (by simp only at hspent; omega) (by
              intro table ht
              have hold := (hj table ht).pop h hqueue
              exact (hrefined.justified table _ (htables table ht).functional hold).discharge
                (huniform table ht))
          refine ⟨hpart, hempty, hjust, ?_, ?_⟩
          · intro p hp q hq heq
            exact hrefined.refines p hp q hq (hrefines p hp q hq heq)
          · intro E hE hkeep
            apply hkeeps E hE
            intro p hp q hq hpq
            refine htogether p hp q hq ?_ (hkeep p hp q hq hpq)
            intro table ht
            refine hE.into ht ?_ hpq
            intro t t' htt' hmem s hs
            exact hkeep.closed h htt' hmem ((htables table ht).target_mem s t' hs)

/-- The groups are disjoint, not empty and cover the states. -/
structure Grouping (states : List Nat) (groups : List (List Nat)) : Prop where
  disjoint : groups.Pairwise fun g g' => ∀ s ∈ g, s ∉ g'
  nonempty : ∀ g ∈ groups, g ≠ []
  mem_iff : ∀ s, s ∈ states ↔ ∃ g ∈ groups, s ∈ g

theorem block_of_getElem? {r : Refinement} {b : Nat} {g : List Nat}
    (hb : r.blocks.toList[b]? = some g) : r.block b = g := by
  rw [Array.getElem?_toList] at hb
  simp [block, Array.getD_eq_getD_getElem?, hb]

theorem Partition.grouping {r : Refinement} (h : Partition states r) :
    Grouping states r.blocks.toList where
  disjoint := by
    rw [List.pairwise_iff_getElem]
    intro i j hi hj hij s hs hs'
    rw [← block_of_getElem? (List.getElem?_eq_getElem hi), h.mem_block] at hs
    rw [← block_of_getElem? (List.getElem?_eq_getElem hj), h.mem_block] at hs'
    omega
  nonempty g hg := by
    obtain ⟨b, hb⟩ := List.mem_iff_getElem?.mp hg
    obtain ⟨hlt, _⟩ := List.getElem?_eq_some_iff.mp hb
    rw [← block_of_getElem? hb]
    exact h.nonempty b (by simpa using hlt)
  mem_iff s := by
    constructor
    · intro hs
      have hlt := h.owner_lt hs
      have hget : r.blocks.toList[r.owner s]? = some r.blocks[r.owner s] := by simp [hlt]
      refine ⟨_, List.mem_of_getElem? hget, ?_⟩
      rw [← block_of_getElem? hget, h.mem_block]
      exact ⟨hs, rfl⟩
    · rintro ⟨g, hg, hs⟩
      obtain ⟨b, hb⟩ := List.mem_iff_getElem?.mp hg
      rw [← block_of_getElem? hb, h.mem_block] at hs
      exact hs.1

/-- Two states have the same owner exactly when one block holds both. -/
theorem Partition.owner_eq_iff {r : Refinement} (h : Partition states r) {p q : Nat}
    (hp : p ∈ states) (hq : q ∈ states) :
    r.owner p = r.owner q ↔ ∃ g ∈ r.blocks.toList, p ∈ g ∧ q ∈ g := by
  constructor
  · intro heq
    obtain ⟨g, hg, hpg⟩ := (h.grouping.mem_iff p).mp hp
    refine ⟨g, hg, hpg, ?_⟩
    obtain ⟨b, hb⟩ := List.mem_iff_getElem?.mp hg
    rw [← block_of_getElem? hb, h.mem_block] at hpg ⊢
    exact ⟨hq, heq.symm.trans hpg.2⟩
  · rintro ⟨g, hg, hpg, hqg⟩
    obtain ⟨b, hb⟩ := List.mem_iff_getElem?.mp hg
    rw [← block_of_getElem? hb, h.mem_block] at hpg hqg
    rw [hpg.2, hqg.2]

theorem owner_start {size : Nat} {groups : List (List Nat)} (h : Grouping states groups)
    (hsize : ∀ s ∈ states, s < size) {i s : Nat} {g : List Nat} (hi : groups[i]? = some g)
    (hs : s ∈ g) : (start size groups).owner s = i := by
  have hlt := hsize s ((h.mem_iff s).mpr ⟨g, List.mem_of_getElem? hi, hs⟩)
  have howner := Table.getD_assignGroups id h.disjoint hi hs 0
    (t := Array.replicate size 0) (by simpa using hlt)
  rw [Nat.zero_add] at howner
  exact howner

theorem partition_start {size : Nat} {groups : List (List Nat)} (h : Grouping states groups)
    (hsize : ∀ s ∈ states, s < size) : Partition states (start size groups) where
  mem_block b s := by
    have hblock : (start size groups).block b = groups[b]?.getD [] := by
      simp [block, start, Array.getD_eq_getD_getElem?]
    rw [hblock]
    constructor
    · intro hs
      cases hb : groups[b]? with
      | none => simp [hb] at hs
      | some g =>
          rw [hb, Option.getD_some] at hs
          have hmem := (h.mem_iff s).mpr ⟨g, List.mem_of_getElem? hb, hs⟩
          exact ⟨hmem, owner_start h hsize hb hs⟩
    · rintro ⟨hs, rfl⟩
      obtain ⟨g, hg, hsg⟩ := (h.mem_iff s).mp hs
      obtain ⟨i, hi⟩ := List.mem_iff_getElem?.mp hg
      rw [owner_start h hsize hi hsg, hi]
      exact hsg
  nonempty b hb := by
    have hlt : b < groups.length := by simpa [start] using hb
    have hblock : (start size groups).block b = groups[b] := by
      simp [block, start, Array.getD_eq_getD_getElem?, hlt]
    rw [hblock]
    exact h.nonempty _ (List.getElem_mem hlt)
  bounded s hs := by
    have hlen : (start size groups).blockOf.size = size :=
      (Table.size_assignGroups id groups 0 (Array.replicate size 0)).trans (by simp)
    rw [hlen]
    exact hsize s hs
  size_queued := by simp [start]
  mem_queue b := by
    by_cases hb : b < groups.length <;>
      simp [start, isQueued, Array.getD_eq_getD_getElem?, hb]
  nodup_queue := List.nodup_range

theorem unmarked_start {size : Nat} (groups : List (List Nat)) (hsize : ∀ s ∈ states, s < size) :
    Unmarked states (start size groups) where
  bounded s hs := by simpa [start] using hsize s hs
  clear s := by
    by_cases hs : s < size <;> simp [isMarked, start, Array.getD_eq_getD_getElem?, hs]

/-- All blocks wait at first. -/
theorem justified_start {size : Nat} {groups : List (List Nat)} (h : Grouping states groups)
    (hsize : ∀ s ∈ states, s < size) (table : Array (List Nat)) :
    Justified states table [] (start size groups) := by
  intro p _ q _ _ _ hqueue b
  by_cases hb : b < groups.length
  · exact hqueue b (List.mem_range.mpr hb)
  · have hnone : ∀ s, ¬Into table (Within states (start size groups) b) s := by
      rintro s ⟨t, ⟨ht, howner⟩, _⟩
      have hlt := (partition_start h hsize).owner_lt ht
      have hblocks : (start size groups).blocks.size = groups.length := by simp [start]
      omega
    simp [hnone]

/-- Refinement ends with a partition into parts of the given groups that is stable under the tables,
and it separates no two states that are bisimilar and of the same group. -/
theorem run_start_spec {size : Nat} {groups : List (List Nat)} (h : Grouping states groups)
    (hsize : ∀ s ∈ states, s < size) {tables : List (Array (List Nat))}
    (htables : ∀ table ∈ tables, TableOver states table) :
    let r := run tables states.length (start size groups)
    Partition states r ∧
      (∀ p ∈ states, ∀ q ∈ states, r.owner p = r.owner q →
        (start size groups).owner p = (start size groups).owner q) ∧
      (∀ table ∈ tables, ∀ p ∈ states, ∀ q ∈ states, r.owner p = r.owner q → ∀ t,
        p ∈ table.getD t [] → ∃ t', q ∈ table.getD t' [] ∧ r.owner t = r.owner t') ∧
      ∀ E, Bisimulation tables E → Keeps states E (start size groups) → Keeps states E r := by
  intro r
  obtain ⟨hpart, hempty, hjust, hrefines, hkeeps⟩ :=
    run_spec tables htables states.length (partition_start h hsize)
      (unmarked_start groups hsize) (by simp [start]; omega)
      fun table _ => justified_start h hsize table
  refine ⟨hpart, hrefines, ?_, hkeeps⟩
  intro table ht p hp q hq heq t hpt
  have hagree := hjust table ht p hp q hq heq (by simp) (by simp [hempty]) (r.owner t)
  obtain ⟨t', ⟨_, howner⟩, hqt'⟩ :=
    hagree.mp ⟨t, ⟨(htables table ht).target_mem p t hpt, rfl⟩, hpt⟩
  exact ⟨t', hqt', howner.symm⟩

end Run

end Refinement

end PatternCircuit
